import EchoDelay.Arithmetic.Checked
import EchoDelay.Arithmetic.Decimal
import EchoDelay.Arithmetic.Fault
import EchoDelay.Arithmetic.Q9
import EchoDelay.Dimensions
import EchoDelay.Estimator.Basic
import EchoDelay.Estimator.Process
import EchoDelay.Estimator.Reading
import EchoDelay.Estimator.Run
import EchoDelay.Estimator.Smoothing
import EchoDelay.Estimator.Thresholds
import EchoDelay.Estimator.Valley
import EchoDelay.Event
import EchoDelay.Handle.Basic
import EchoDelay.Handle.Table
import EchoDelay.History
import EchoDelay.Proofs.Acceptance
import EchoDelay.Proofs.Agreement
import EchoDelay.Proofs.Assessment
import EchoDelay.Proofs.Closeness
import EchoDelay.Proofs.Construction
import EchoDelay.Proofs.DelayCode
import EchoDelay.Proofs.DelayLine
import EchoDelay.Proofs.DelayedStream
import EchoDelay.Proofs.Evidence
import EchoDelay.Proofs.FinalRun
import EchoDelay.Proofs.Forgetting
import EchoDelay.Proofs.GeometricPeriod
import EchoDelay.Proofs.Hamming
import EchoDelay.Proofs.HandleCreation
import EchoDelay.Proofs.HistoryAges
import EchoDelay.Proofs.Invariant
import EchoDelay.Proofs.Isolation
import EchoDelay.Proofs.Landscape
import EchoDelay.Proofs.Lifetime
import EchoDelay.Proofs.LockIn
import EchoDelay.Proofs.Log
import EchoDelay.Proofs.MeanStep
import EchoDelay.Proofs.Memory
import EchoDelay.Proofs.Positions
import EchoDelay.Proofs.Range
import EchoDelay.Proofs.Recovery
import EchoDelay.Proofs.Relabel
import EchoDelay.Proofs.Residual
import EchoDelay.Proofs.RowDistances
import EchoDelay.Proofs.Run
import EchoDelay.Proofs.Safety
import EchoDelay.Proofs.Silence
import EchoDelay.Proofs.Smoothing
import EchoDelay.Proofs.Stickiness
import EchoDelay.Proofs.Stream
import EchoDelay.Proofs.Thresholds
import EchoDelay.Proofs.TrackMetric
import EchoDelay.Proofs.WarmUp
import EchoDelay.Proofs.Window
import EchoDelay.Spectrum.Basic
import EchoDelay.Spectrum.Delayed
import EchoDelay.Spectrum.Geometric
import EchoDelay.Track

/-!
# Echo delay estimation

How many frames the near end lags behind the far end is estimated from their binary spectra: the
delay is the one for which the two differ least, by smoothed Hamming distances.

* `Arithmetic`: faults, checked sizes and the fixed-point numbers of the means.
* `Spectrum`, `History`, `Dimensions`: what an estimator hears, keeps and is made for.
* `Estimator`: one estimator, frame by frame and over runs of commands.
* `Handle`: estimators behind handles and tables of them, for callers with 32-bit signed numbers.
* `Track`: the delays of a run, compared and searched.
* `Proofs`: what all of these do on every input. The results on estimators rest on the invariant in
  `Invariant` and on the induction over commands in `Run`; `Stream` reads the buffers of an
  estimator off what it has heard.
-/
