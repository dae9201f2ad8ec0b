import Numeral.Fuzz.Check
import Numeral.Fuzz.Sample
import Numeral.Scan
import Numeral.Serial
import Numeral.Session
import Numeral.Proofs.Binary64.Nearest
import Numeral.Proofs.Binary64.Rounding
import Numeral.Proofs.Binary64.Exact
import Numeral.Proofs.Decimal.Rounding
import Numeral.Proofs.Decimal.Notation
import Numeral.Proofs.Literal.Grammar
import Numeral.Proofs.Literal.Extent
import Numeral.Proofs.Literal.Announcement
import Numeral.Proofs.Literal.Beginning
import Numeral.Proofs.Literal.Delimiting
import Numeral.Proofs.Literal.Exponent
import Numeral.Proofs.Literal.LetterCase
import Numeral.Proofs.Literal.Mantissa
import Numeral.Proofs.Literal.SingleRounding
import Numeral.Proofs.Literal.PowerOfTwo
import Numeral.Proofs.Reading.Placement
import Numeral.Proofs.Reading.Dispatch
import Numeral.Proofs.Reading.Delimiting
import Numeral.Proofs.Reading.LetterCase
import Numeral.Proofs.Reading.Translation
import Numeral.Proofs.Scan.Coverage
import Numeral.Proofs.Fuzz.CheckPasses
import Numeral.Proofs.Literal.Interruption
import Numeral.Proofs.Reading.Interruption
import Numeral.Proofs.Reading.Accumulation
import Numeral.Proofs.Literal.Transparency
import Numeral.Proofs.Literal.Faults
import Numeral.Proofs.Reading.Transparency
import Numeral.Proofs.Binary64.Unsigned
import Numeral.Proofs.Binary64.Faithful
import Numeral.Proofs.Binary64.Scaling
import Numeral.Proofs.Binary64.Accumulation
import Numeral.Proofs.Decimal.Display
import Numeral.Proofs.Literal.Unsigned
import Numeral.Proofs.Literal.Accumulation
import Numeral.Proofs.Reading.Faults
import Numeral.Proofs.Literal.Parsing
import Numeral.Proofs.Reading.Signs
import Numeral.Proofs.Decimal.Shortest
import Numeral.Proofs.Reading.Display
import Numeral.Proofs.Literal.Widening
import Numeral.Proofs.Reading.Widening
import Numeral.Proofs.Reading.Watching
import Numeral.Proofs.Session.Places
import Numeral.Proofs.Reading.Grammar
import Numeral.Proofs.Json.Pieces
import Numeral.Proofs.Json.Tokens
import Numeral.Proofs.Json.Values
import Numeral.Proofs.Json.Integers
import Numeral.Proofs.Json.Records
import Numeral.Proofs.Serial.Forms
import Numeral.Proofs.Serial.RoundTrip
import Numeral.Proofs.Binary64.Negation
import Numeral.Proofs.Reading.SignedNumber
import Numeral.Proofs.Reading.Exponent
import Numeral.Proofs.Fuzz.Draws
import Numeral.Proofs.Fuzz.Filling
import Numeral.Proofs.Reading.Scaling
import Numeral.Proofs.Fuzz.Variation
import Numeral.Proofs.Text.Sequence
import Numeral.Proofs.Text.Decoding
import Numeral.Proofs.Reading.Bytes
import Numeral.Proofs.Fuzz.Formation
