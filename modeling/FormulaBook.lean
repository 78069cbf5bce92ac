import FormulaBook.Book.Session
import FormulaBook.Main
import FormulaBook.Proofs.Nesting
import FormulaBook.Proofs.Places
import FormulaBook.Proofs.Roles
import FormulaBook.Proofs.Readback
import FormulaBook.Proofs.Refusal
import FormulaBook.Proofs.RoundTrip
import FormulaBook.Number.Notation
import FormulaBook.Proofs.Sessions
import FormulaBook.Proofs.Grafts
import FormulaBook.Proofs.Characters
import FormulaBook.Proofs.Flow
import FormulaBook.Proofs.Independence
import FormulaBook.Proofs.Selection
import FormulaBook.Proofs.Segmentation
import FormulaBook.Proofs.Documents
import FormulaBook.Proofs.RawScans
import FormulaBook.Proofs.Relevance
import FormulaBook.Proofs.SumsOfProducts
import FormulaBook.Proofs.ExitCodes
import FormulaBook.Proofs.DotDrawings
import FormulaBook.Proofs.Scales
import FormulaBook.Proofs.Blueprints
import FormulaBook.Proofs.Spellings
import FormulaBook.Proofs.Differences
import FormulaBook.Proofs.Prunings
import FormulaBook.Proofs.FirstPaths
import FormulaBook.Proofs.Joints
import FormulaBook.Proofs.Outlines
import FormulaBook.Proofs.RawTokens
import FormulaBook.Proofs.Seeds
import FormulaBook.Proofs.Entries
import FormulaBook.Proofs.IdSupply
import FormulaBook.Proofs.Constants
