import Mathlib.Logic.Function.Basic
import Mathlib.Data.Option.Basic
import Mathlib.Data.Nat.Notation

/-!
# A map that forgets what is not used

Each entry has the number of turns since it was used. A turn makes every entry older
by one, and those that reach the limit are gone; no other operation loses the entry
of another key.
-/

/-- The value of a key and the turns since it was used. -/
abbrev AgedMap (κ ν : Type*) := κ → Option (ν × ℕ)

namespace AgedMap

variable {κ ν : Type*}

def empty : AgedMap κ ν := fun _ => none

def get (m : AgedMap κ ν) (k : κ) : Option ν := (m k).map Prod.fst

/-- Every entry is older by one. -/
def turn (limit : ℕ) (m : AgedMap κ ν) : AgedMap κ ν := fun k =>
  (m k).bind fun e => if e.2 + 1 < limit then some (e.1, e.2 + 1) else none

variable [DecidableEq κ]

def put (m : AgedMap κ ν) (k : κ) (v : ν) : AgedMap κ ν := Function.update m k (some (v, 0))

/-- The entry is used as it is. -/
def touch (m : AgedMap κ ν) (k : κ) : AgedMap κ ν :=
  Function.update m k ((m k).map fun e => (e.1, 0))

def erase (m : AgedMap κ ν) (k : κ) : AgedMap κ ν := Function.update m k none

@[simp] theorem get_erase_self (m : AgedMap κ ν) (k : κ) : (m.erase k).get k = none := by
  simp [get, erase]

theorem put_touch (m : AgedMap κ ν) (k : κ) (v : ν) : (m.touch k).put k v = m.put k v := by
  simp [put, touch]

end AgedMap
