import PhaseVocoder.Command.Line
import PhaseVocoder.Command.Run
import PhaseVocoder.Config.Error
import PhaseVocoder.Config.Reader
import PhaseVocoder.Config.Tuning
import PhaseVocoder.Decimal.Shortest
import PhaseVocoder.Decimal.Text
import PhaseVocoder.Error
import PhaseVocoder.Fault
import PhaseVocoder.Frame.Ring
import PhaseVocoder.Frame.Window
import PhaseVocoder.Ieee
import PhaseVocoder.Main
import PhaseVocoder.Mix.Ambisonic
import PhaseVocoder.Mix.Ramp
import PhaseVocoder.Ratio
import PhaseVocoder.Render
import PhaseVocoder.Shifter.Effect
import PhaseVocoder.Shifter.Engine
import PhaseVocoder.Signal.Sample
import PhaseVocoder.Signal.Scalar
import PhaseVocoder.Spectrum.Analysis
import PhaseVocoder.Spectrum.Bin
import PhaseVocoder.Spectrum.Phase
import PhaseVocoder.Spectrum.Remap
import PhaseVocoder.Spectrum.Synthesis
import PhaseVocoder.Spectrum.Transform
import PhaseVocoder.Text.GraphemeExtend
import PhaseVocoder.Text.Graphic
import PhaseVocoder.Text.Ranges
import PhaseVocoder.Tuning
import PhaseVocoder.Wave.Clip
import PhaseVocoder.Wave.Error
import PhaseVocoder.Wave.Read
import PhaseVocoder.Wave.Write
import PhaseVocoder.Proofs.Basic
import PhaseVocoder.Proofs.Mixing
import PhaseVocoder.Proofs.Ring
import PhaseVocoder.Proofs.Stream
import PhaseVocoder.Proofs.Schedule
import PhaseVocoder.Proofs.Binary64
import PhaseVocoder.Proofs.PhaseBounds
import PhaseVocoder.Proofs.Safety
import PhaseVocoder.Proofs.Spectrum
import PhaseVocoder.Proofs.Exact
import PhaseVocoder.Proofs.Fourier
import PhaseVocoder.Proofs.Delay
import PhaseVocoder.Proofs.ExactDoubles
import PhaseVocoder.Proofs.Remap
import PhaseVocoder.Proofs.OverlapAdd
import PhaseVocoder.Proofs.Rotation
import PhaseVocoder.Proofs.Silence
import PhaseVocoder.Proofs.SilentDoubles
import PhaseVocoder.Proofs.ExactOperations
import PhaseVocoder.Proofs.Wraps
import PhaseVocoder.Proofs.Estimation
import PhaseVocoder.Proofs.RunningPhase
import PhaseVocoder.Proofs.WaveReading
import PhaseVocoder.Proofs.Singles
import PhaseVocoder.Proofs.Rendering
import PhaseVocoder.Proofs.Requantize
import PhaseVocoder.Proofs.WaveRoundTrip
import PhaseVocoder.Proofs.WindowGain
import PhaseVocoder.Proofs.TuningRange
import PhaseVocoder.Proofs.WrapRange
