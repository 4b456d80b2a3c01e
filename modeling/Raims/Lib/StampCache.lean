import Mathlib.Logic.Function.Basic
import Mathlib.Order.Nat

/-!
# A cache that is revalidated by a stamp

Every entry has the version at which it was filled, and it is taken as it is when that is
the version that there is now. The version that is there at first, zero, fills nothing.
Entries are right if the version is increased by each change of what they were filled from.
-/

namespace StampCache

variable {κ ε : Type*}

/-- No entry is from a later version, and an entry from this one is right. -/
structure Valid (stamp : ε → ℕ) (ok : κ → ε → Prop) (version : ℕ) (tab : κ → Option ε) : Prop where
  le : ∀ k e, tab k = some e → stamp e ≤ version
  ok : ∀ k e, tab k = some e → stamp e = version → version ≠ 0 → ok k e

variable {stamp : ε → ℕ} {ok ok' : κ → ε → Prop} {version version' : ℕ} {tab : κ → Option ε}

theorem Valid.empty (stamp : ε → ℕ) (ok : κ → ε → Prop) (version : ℕ) :
    Valid stamp ok version fun _ => none where
  le _ _ h := absurd h.symm (Option.some_ne_none _)
  ok _ _ h := absurd h.symm (Option.some_ne_none _)

/-- After the version is increased no entry is taken as it is. -/
theorem Valid.bump (h : Valid stamp ok version tab) (hlt : version < version') :
    Valid stamp ok' version' tab where
  le k e he := (h.le k e he).trans hlt.le
  ok k e he hstamp := absurd hstamp ((h.le k e he).trans_lt hlt).ne

/-- Without it, the entries that are taken as they are have to stay right. -/
theorem Valid.change (h : Valid stamp ok version tab)
    (hok : ∀ k e, tab k = some e → stamp e = version → version ≠ 0 → ok k e → ok' k e) :
    Valid stamp ok' version tab where
  le := h.le
  ok k e he hstamp hne := hok k e he hstamp hne (h.ok k e he hstamp hne)

theorem Valid.update [DecidableEq κ] (h : Valid stamp ok version tab) {k : κ} {e : ε}
    (hle : stamp e ≤ version) (hok : stamp e = version → version ≠ 0 → ok k e) :
    Valid stamp ok version (Function.update tab k (some e)) where
  le k' e' he' := by
    by_cases hk : k' = k
    · rw [hk, Function.update_self] at he'
      exact Option.some.inj he' ▸ hle
    · rw [Function.update_of_ne hk] at he'
      exact h.le k' e' he'
  ok k' e' he' := by
    by_cases hk : k' = k
    · subst hk
      rw [Function.update_self] at he'
      exact Option.some.inj he' ▸ hok
    · rw [Function.update_of_ne hk] at he'
      exact h.ok k' e' he'

/-- An entry that has no stamp yet. -/
theorem Valid.insert [DecidableEq κ] (h : Valid stamp ok version tab) (k : κ) {e : ε}
    (he : stamp e = 0) : Valid stamp ok version (Function.update tab k (some e)) :=
  h.update (he ▸ Nat.zero_le version) fun hstamp hne => absurd (hstamp.symm.trans he) hne

end StampCache
