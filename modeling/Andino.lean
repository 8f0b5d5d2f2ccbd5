import Andino.Library.CArith
import Andino.Library.Steps
import Andino.Library.CString
import Andino.Library.Decimal
import Andino.Library.LineRpc
import Andino.Library.LineLag
import Andino.Library.Saturation
import Andino.Library.Moments
import Andino.Library.Truncation
import Andino.Library.PolledTimer
import Andino.Library.Pending
import Andino.Firmware.Pid
import Andino.Firmware.PidCalls
import Andino.Firmware.PidExact
import Andino.Firmware.Motor
import Andino.Firmware.Encoder
import Andino.Firmware.Quadrature
import Andino.Firmware.Shell
import Andino.Firmware.ShellDispatch
import Andino.Firmware.ShellLines
import Andino.Firmware.App
import Andino.Firmware.Drive
import Andino.Firmware.DeadMan
import Andino.Firmware.AutoStop
import Andino.Firmware.Channel
import Andino.Firmware.Restart
import Andino.Firmware.Modes
import Andino.Firmware.Command
import Andino.Firmware.Pwm
import Andino.Firmware.Overflow
import Andino.Firmware.Gains
import Andino.Firmware.Core
import Andino.Firmware.Symmetry
import Andino.Firmware.ResetEncoders
import Andino.Firmware.InForce
import Andino.Firmware.Travel
import Andino.Firmware.Board
import Andino.Firmware.Counts
import Andino.Firmware.Rollover
import Andino.Firmware.Windup
import Andino.Firmware.Queries
import Andino.Firmware.Period
import Andino.Firmware.MemorySafety
import Andino.Firmware.Sides
import Andino.Host.MotorDriver
import Andino.Host.DiffDrive
import Andino.Host.HardwareInterface
import Andino.System.RoundTrip
import Andino.System.Link
import Andino.System.Pairing
import Andino.System.Delivery
import Andino.System.Lag
import Andino.System.Progress
import Andino.System.Velocity
import Andino.System.Odometry
import Andino.System.Robot
