import Metrology.Message
import Metrology.Quantity
import Metrology.Workspace
import Metrology.Proofs.Converter.Chain
import Metrology.Proofs.Double.Fields
import Metrology.Proofs.Converter.GroupLaw
import Metrology.Proofs.Expression.Completeness
import Metrology.Proofs.Expression.Meaning
import Metrology.Proofs.Catalog.RoundTrip
import Metrology.Proofs.Expression.OuterNotes
import Metrology.Proofs.Catalog.NotedRoundTrip
import Metrology.Proofs.MeasureUnit.Building
import Metrology.Proofs.MeasureUnit.Scale
import Metrology.Proofs.MeasureUnit.Coherence
import Metrology.Proofs.Converter.Exactness
import Metrology.Proofs.Quantity
import Metrology.Proofs.MeasureUnit.Representation
import Metrology.Proofs.MeasureUnit.Unwinding
import Metrology.Proofs.MeasureUnit.GroupLaw
import Metrology.Proofs.Converter.NormalForm
import Metrology.Proofs.SymbolMap.Operations
import Metrology.Proofs.Token.Lossless
import Metrology.Proofs.Converter.LowestTerms
import Metrology.Proofs.Expression.Simulation
import Metrology.Proofs.Expression.Lockstep
import Metrology.Proofs.Expression.Reuse
import Metrology.Proofs.Expression.Glyphs
import Metrology.Proofs.Expression.Respelling
import Metrology.Proofs.Expression.Styles
import Metrology.Proofs.Expression.Exactness
import Metrology.Proofs.Catalog.Styles
import Metrology.Proofs.MeasureUnit.Action
import Metrology.Proofs.MeasureUnit.Roots
import Metrology.Proofs.MeasureUnit.Sums
import Metrology.Proofs.MeasureUnit.Cancellation
import Metrology.Proofs.Token.Refusal
import Metrology.Proofs.Expression.RationalPower
import Metrology.Proofs.Catalog.Powers
import Metrology.Proofs.Token.Lookahead
import Metrology.Proofs.Expression.TrailingNote
import Metrology.Proofs.Expression.Blanks
import Metrology.Proofs.Expression.NestingLimit
import Metrology.Proofs.Expression.Explanations
import Metrology.Proofs.Expression.Places
import Metrology.Proofs.Converter.Powers
import Metrology.Proofs.Expression.Literals
import Metrology.Proofs.Converter.Validity
import Metrology.Proofs.Workspace
