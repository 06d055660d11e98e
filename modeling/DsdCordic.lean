import DsdCordic.Foundations.Clocked
import DsdCordic.Foundations.WhileLoop
import DsdCordic.Foundations.Binary32
import DsdCordic.Foundations.TwosComplement
import DsdCordic.Foundations.Rounding
import DsdCordic.Foundations.Encoding
import DsdCordic.Foundations.Flushing
import DsdCordic.Foundations.Shifters
import DsdCordic.Foundations.AngleRecursion
import DsdCordic.Foundations.ArctanSeries
import DsdCordic.Foundations.Rotation
import DsdCordic.Cordic.Unpacker
import DsdCordic.Cordic.Sdiv
import DsdCordic.Cordic.Engine
import DsdCordic.Cordic.Packer
import DsdCordic.Cordic.RoundTrip
import DsdCordic.Cordic.Cosine
import DsdCordic.Cordic.Convergence
import DsdCordic.Cordic.VectorRotation
import DsdCordic.Cordic.Accuracy
import DsdCordic.Peripheral.Cores
import DsdCordic.Peripheral.Term
import DsdCordic.Peripheral.Top
import DsdCordic.Peripheral.Requests
import DsdCordic.Peripheral.Sums
import DsdCordic.Peripheral.Driver
import DsdCordic.Peripheral.Snapshot
import DsdCordic.Peripheral.Reset
import DsdCordic.Generated.FpMult0002
import DsdCordic.Generated.FpAdd0002
import DsdCordic.Generated.FpAcc0002
import DsdCordic.Generated.Elaborated
import DsdCordic.Generated.Precision
import DsdCordic.Generated.Batches
import DsdCordic.Generated.Restart
import DsdCordic.Software.Session
import DsdCordic.Software.HelloWorld
import DsdCordic.Scripts.FloatToFixed
import DsdCordic.Scripts.FixedFracToFloat
import DsdCordic.Scripts.Interperter
