import Cscan.Target.Uniform
import Cscan.Target.Linear
import Cscan.Target.Weights
import Cscan.Target.PortAgree
import Cscan.Cba.Deinterleave
import Cscan.Cba.SkipFiles
import Cscan.Cba.Reiterate
import Cscan.Cba.Extract
import Cscan.Cba.RoundTrip
import Cscan.Cba.Concurrent
import Cscan.Cba.Defer
import Cscan.Cba.Chunks
import Cscan.Cba.Stats
import Cscan.Metrics.Curves
import Cscan.Metrics.Resample
import Cscan.Lib.Runs
import Cscan.Rfb.Classify
import Cscan.Modules.Refine
import Cscan.Modules.Messages
import Cscan.Scan.Canary
import Cscan.Scan.Ownership
import Cscan.Scan.SocketMap
import Cscan.Scan.Pacer
import Cscan.Scan.Timeouts
import Cscan.Blocking.Lost
import Cscan.Blocking.Pipeline
import Cscan.Blocking.Resize
import Cscan.Results.Marker
import Cscan.Results.Replay
import Cscan.Options.Order
import Cscan.Options.Tables
import Cscan.Worker.Scanned
import Cscan.Worker.Killed
import Cscan.Worker.Appended
import Cscan.Metrics.Scanned
