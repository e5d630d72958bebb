import NinjaVision.Lib.CycleSum
import NinjaVision.Lib.Planar
import NinjaVision.Lib.Convex
import NinjaVision.Lib.HullBounds
import NinjaVision.Lib.HullExists
import NinjaVision.Lib.Angles
import NinjaVision.Lib.Arctan
import NinjaVision.Lib.ExactDouble
import NinjaVision.Lib.Rounding
import NinjaVision.Lib.Machine
import NinjaVision.Lib.Mailbox
import NinjaVision.Lib.TypedTable
import NinjaVision.Lib.Replay
import NinjaVision.Lib.Critical
import NinjaVision.Lib.Linearize
import NinjaVision.Device.CvFreenect
import NinjaVision.Device.Handoff
import NinjaVision.Device.Snapshot
import NinjaVision.Device.Locking
import NinjaVision.Device.Tearing
import NinjaVision.Detector.Contour
import NinjaVision.Detector.Outline
import NinjaVision.Detector.Filter
import NinjaVision.Detector.Geometry
import NinjaVision.Detector.Symmetry
import NinjaVision.Detector.Pinhole
import NinjaVision.Detector.UShape
import NinjaVision.Detector.Convex
import NinjaVision.Detector.Polygon
import NinjaVision.Detector.Bounds
import NinjaVision.Detector.Readout
import NinjaVision.Detector.Rounded
import NinjaVision.Detector.Bearing
import NinjaVision.Table.NetworkTable
import NinjaVision.Main.Frame
import NinjaVision.Main.Loop
import NinjaVision.Main.Intake
import NinjaVision.Main.Publication
import NinjaVision.Main.Rejected
import NinjaVision.Main.Watchdog
import NinjaVision.Main.Threads
import NinjaVision.Main.Delivery
import NinjaVision.Main.Deployment
import NinjaVision.Main.Mask
import NinjaVision.Main.Reads
import NinjaVision.Main.Linked
