import IgLibs.Config.Reading
import IgLibs.Acyclic

namespace IgLibs.Config

open Relation Acyclic

-- Parsing one file calls parse for another: the includes in front of that line have succeeded.
def Calls (files : Files) (name other : List UInt8) : Prop :=
  ∃ before line after, file_lines files name = some (some (before ++ line :: after)) ∧
    setting line = some (include_word, other) ∧
    ∀ earlier ∈ before, ∀ val, setting earlier = some (include_word, val) →
      ∃ depth pairs, reading files depth val = some (pairs, true)

section

variable {inc : List UInt8 → Option (Pairs × Bool)} {line other : List UInt8}
  {before after lines : List (List UInt8)} {r : Pairs × Bool}

end

section

variable {files : Files} {name other root : List UInt8} {depth : Nat} {r : Pairs × Bool}

end

end IgLibs.Config
