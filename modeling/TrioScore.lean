import TrioScore.Main
import TrioScore.Proofs.Faults
import TrioScore.Proofs.Piece.FixedPoint
import TrioScore.Proofs.Piece.Repaired
import TrioScore.Proofs.Score.Drift
import TrioScore.Proofs.Meter.Pulses
import TrioScore.Proofs.Binary64.Difference
import TrioScore.Proofs.Score.Countdown
import TrioScore.Proofs.Score.Melody
import TrioScore.Proofs.Score.Playable
import TrioScore.Proofs.Meter.Written
import TrioScore.Proofs.Smf.Reader
import TrioScore.Proofs.Smf.Chunks
import TrioScore.Proofs.Smf.Writable
import TrioScore.Proofs.Score.Emergency
import TrioScore.Proofs.Delivery
import TrioScore.Proofs.Binary64.Product
import TrioScore.Proofs.Score.Alike
import TrioScore.Proofs.Score.Rendered
import TrioScore.Proofs.Piece.Defaults
import TrioScore.Proofs.Piece.Heard
import TrioScore.Proofs.Smf.Payload
import TrioScore.Proofs.Smf.Readback
import TrioScore.Proofs.Score.Timeline
import TrioScore.Proofs.Smf.Notes
import TrioScore.Proofs.Smf.Sorted
import TrioScore.Proofs.Smf.Conductor
import TrioScore.Proofs.Smf.Decoded
import TrioScore.Proofs.Smf.Alternation
import TrioScore.Proofs.Delivery.Repaired
import TrioScore.Proofs.Mood.Reading
import TrioScore.Proofs.Mood.Sane
import TrioScore.Proofs.Mood.Aligned
import TrioScore.Proofs.Score.Aligned
import TrioScore.Proofs.Delivery.Commissioned
import TrioScore.Proofs.Delivery.Readings
import TrioScore.Proofs.Delivery.Recovered
import TrioScore.Proofs.Score.Layout
import TrioScore.Proofs.Score.Gapless
import TrioScore.Proofs.Score.Joined
import TrioScore.Proofs.Score.Barline
import TrioScore.Proofs.Decimal.Shortest
import TrioScore.Proofs.Json.Numeral
import TrioScore.Proofs.Json.Text
import TrioScore.Proofs.Json.Token
import TrioScore.Proofs.Json.Ascii
import TrioScore.Proofs.Json.Readback
import TrioScore.Proofs.Json.Readable
import TrioScore.Proofs.Piece.Readable
import TrioScore.Proofs.Command.Document
import TrioScore.Proofs.Command.Call
import TrioScore.Proofs.Command.Path
import TrioScore.Proofs.Command.Directory
import TrioScore.Proofs.Command.Reached
import TrioScore.Proofs.Command.Render
import TrioScore.Proofs.Command.Inspect
import TrioScore.Proofs.Score.Short
import TrioScore.Proofs.Decimal.Spelled
import TrioScore.Proofs.Mood.Written
import TrioScore.Proofs.Command.Compose
import TrioScore.Proofs.Decimal.Integer
import TrioScore.Proofs.Piece.Numerals
import TrioScore.Proofs.Piece.Motifs
import TrioScore.Proofs.Piece.Checked
import TrioScore.Proofs.Binary64.Scaled
import TrioScore.Proofs.Binary64.Overflow
import TrioScore.Proofs.Score.Weights
import TrioScore.Proofs.Decimal.Run
import TrioScore.Proofs.Piece.Cadences
import TrioScore.Proofs.Piece.Fieldwise
import TrioScore.Proofs.Meter.Spelled
import TrioScore.Proofs.Score.DataBytes
import TrioScore.Proofs.NoteLength.Ladder
import TrioScore.Proofs.Command.Save
import TrioScore.Proofs.Base64
import TrioScore.Proofs.Command.Transport
import TrioScore.Proofs.Binary64.Monotone
import TrioScore.Proofs.Score.Louder
import TrioScore.Proofs.Mood.Arousal
import TrioScore.Proofs.Key.Ascending
import TrioScore.Proofs.Chord.Triad
import TrioScore.Proofs.Score.BassLine
import TrioScore.Proofs.Binary64.HalfUp
import TrioScore.Proofs.Piece.Rounded
import TrioScore.Proofs.Number.Nearest
