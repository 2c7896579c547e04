import EspDrivers.ContigLinks
import EspDrivers.ContigResults
import EspDrivers.ContigMmap
import EspDrivers.LibRollback
import EspDrivers.LibInit
import EspDrivers.EspNames
import EspDrivers.EspBounds
import EspDrivers.EspBuffers
import EspDrivers.EspSolo
import EspDrivers.EspMode
import EspDrivers.EspProbe
import EspDrivers.Dwt53Inverse
import EspDrivers.FftStages
import EspDrivers.Adder
import EspDrivers.LibBounds
import EspDrivers.LibGeometry
import EspDrivers.SynthFootprint
import EspDrivers.Ensemble
import EspDrivers.BarecProbe
import EspDrivers.BarecFlush
import EspDrivers.AppTests
import EspDrivers.LibEsp
import EspDrivers.FftVerdict
import EspDrivers.LittleEndian
import EspDrivers.ViterbiExact
import EspDrivers.ViterbiAccelerator
import EspDrivers.SpmvMatrix
