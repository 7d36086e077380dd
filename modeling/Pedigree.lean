import Pedigree.Main
import Pedigree.Proofs.Cells
import Pedigree.Proofs.Faultless
import Pedigree.Proofs.Rings
import Pedigree.Proofs.OffsetSearch
import Pedigree.Proofs.Sorting
import Pedigree.Proofs.Caches
import Pedigree.Proofs.Generations
import Pedigree.Proofs.Disjoint
import Pedigree.Proofs.Descent
import Pedigree.Proofs.Rows
import Pedigree.Proofs.Enclosing
import Pedigree.Proofs.Lines
import Pedigree.Proofs.Neighbours
import Pedigree.Proofs.Contours
import Pedigree.Proofs.Merging
import Pedigree.Proofs.NormalForm
import Pedigree.Proofs.Crossings
import Pedigree.Proofs.Steps
import Pedigree.Proofs.Strays
import Pedigree.Proofs.Hanging
import Pedigree.Proofs.Floors
import Pedigree.Proofs.Hugging
import Pedigree.Proofs.RowTops
import Pedigree.Proofs.Forest
import Pedigree.Proofs.Spelling
import Pedigree.Proofs.Tokens
import Pedigree.Proofs.Grammar
import Pedigree.Proofs.Reading
import Pedigree.Proofs.Overlaps
import Pedigree.Proofs.Exact
import Pedigree.Proofs.Siblings
import Pedigree.Proofs.Persons
import Pedigree.Proofs.Offsets
import Pedigree.Proofs.Reports
import Pedigree.Proofs.Detours
import Pedigree.Proofs.Identities
import Pedigree.Proofs.Surnames
import Pedigree.Proofs.Wordings
import Pedigree.Proofs.Comments
import Pedigree.Proofs.Chronicle
import Pedigree.Proofs.Mirror
import Pedigree.Proofs.Origins
import Pedigree.Proofs.Outcomes
import Pedigree.Proofs.Repeats
import Pedigree.Proofs.Snug
import Pedigree.Proofs.Relayout
import Pedigree.Proofs.Sizes
import Pedigree.Proofs.Safety
import Pedigree.Proofs.Snapping
import Pedigree.Proofs.Filling
import Pedigree.Proofs.Corners
import Pedigree.Proofs.Loops
import Pedigree.Proofs.Margins
import Pedigree.Proofs.Links
import Pedigree.Proofs.Shared
import Pedigree.Proofs.Middles
import Pedigree.Proofs.Frames
import Pedigree.Proofs.Joining
import Pedigree.Proofs.Quotations
import Pedigree.Proofs.Interning
import Pedigree.Proofs.Extremes
import Pedigree.Proofs.Nudging
