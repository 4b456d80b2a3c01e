import Raims.Lib.Run
import Mathlib.Data.Nat.Notation
import Mathlib.Logic.Function.Basic

/-!
# Rosters

The members of a group by id, each under a name of its own; the ids are given in order. A
member is there or away, and takes part only while it is there. Two indexes lead from names
to ids, one for the members that are there and one for those that are away.
-/

/-- Whether a member takes part, and whether it is away. -/
structure Standing where
  active : Bool
  away : Bool
deriving DecidableEq

@[ext]
structure Roster (ν : Type*) where
  nextId : ℕ
  /-- the names of those that are there -/
  here : ν → Option ℕ
  /-- the names of those that are away -/
  gone : ν → Option ℕ
  member : ℕ → Option (ν × Standing)

namespace Roster

variable {ν : Type*}

/-- The lookup of a name. -/
def find (r : Roster ν) (name : ν) : Option ℕ := (r.here name).or (r.gone name)

section

variable [DecidableEq ν] (r : Roster ν)

/-- A new member is there, and does not take part yet. -/
def enter (name : ν) : Roster ν where
  nextId := r.nextId + 1
  here := Function.update r.here name (some r.nextId)
  gone := r.gone
  member := Function.update r.member r.nextId (some (name, ⟨false, false⟩))

/-- A member takes part, if it was away it comes back. -/
def join (id : ℕ) : Roster ν :=
  match r.member id with
  | none => r
  | some (name, s) =>
    { nextId := r.nextId
      here := if s.away then Function.update r.here name (some id) else r.here
      gone := if s.away then Function.update r.gone name none else r.gone
      member := Function.update r.member id (some (name, ⟨true, false⟩)) }

def leave (id : ℕ) : Roster ν :=
  match r.member id with
  | none => r
  | some (name, s) =>
    { nextId := r.nextId
      here := Function.update r.here name none
      gone := if s.away then r.gone else Function.update r.gone name (some id)
      member := Function.update r.member id (some (name, ⟨false, true⟩)) }

inductive Op (ν : Type*) where
  | enter (name : ν)
  | join (id : ℕ)
  | leave (id : ℕ)

def step : Op ν → Roster ν
  | .enter name => r.enter name
  | .join id => r.join id
  | .leave id => r.leave id

end

/-- A name is given once. -/
def Fresh (r : Roster ν) : Op ν → Prop
  | .enter name => r.find name = none
  | _ => True

/-! ## The indexes -/

/-- A member is found under its name, in the index that its standing says. -/
structure Indexed (r : Roster ν) : Prop where
  here : ∀ {id name s}, r.member id = some (name, s) → s.away = false → r.here name = some id
  gone : ∀ {id name s}, r.member id = some (name, s) → s.away = true →
    r.here name = none ∧ r.gone name = some id

/-- The indexes are right, and who is away takes no part. -/
structure Sound (r : Roster ν) : Prop extends Indexed r where
  idle : ∀ {id name s}, r.member id = some (name, s) → s.away = true → s.active = false

/-- Nobody has entered yet. -/
theorem sound_of_empty {r : Roster ν} (h : ∀ id, r.member id = none) : r.Sound := by
  have hnone : ∀ {id p}, r.member id ≠ some p := by
    rintro id p hm
    exact Option.some_ne_none p (hm.symm.trans (h id))
  exact ⟨⟨fun hm => absurd hm hnone, fun hm => absurd hm hnone⟩, fun hm => absurd hm hnone⟩

section

variable {r : Roster ν}

theorem Indexed.find (h : r.Indexed) {id : ℕ} {name : ν} {s : Standing}
    (hm : r.member id = some (name, s)) : r.find name = some id := by
  rw [Roster.find]
  cases haway : s.away with
  | false => rw [h.here hm haway, Option.some_or]
  | true => rw [(h.gone hm haway).1, (h.gone hm haway).2, Option.none_or]

/-- No two members have one name. -/
theorem Indexed.name_inj (h : r.Indexed) {id id' : ℕ} {name : ν} {s s' : Standing}
    (hm : r.member id = some (name, s)) (hm' : r.member id' = some (name, s')) : id = id' :=
  Option.some.inj ((h.find hm).symm.trans (h.find hm'))

/-- The members after one of them changed. -/
theorem update_cases {f : ℕ → Option (ν × Standing)} {id u : ℕ} {name x : ν} {s t : Standing}
    (h : Function.update f id (some (name, s)) u = some (x, t)) :
    (u = id ∧ x = name ∧ t = s) ∨ (u ≠ id ∧ f u = some (x, t)) := by
  by_cases hu : u = id
  · subst hu
    rw [Function.update_self] at h
    obtain ⟨rfl, rfl⟩ := Prod.mk.inj (Option.some.inj h)
    exact .inl ⟨rfl, rfl, rfl⟩
  · rw [Function.update_of_ne hu] at h
    exact .inr ⟨hu, h⟩

/-- A member is the one that changed, or one with another name. -/
theorem Indexed.moved_cases (h : r.Indexed) {id u : ℕ} {name x : ν} {s s' t : Standing}
    (hm : r.member id = some (name, s))
    (hu : Function.update r.member id (some (name, s')) u = some (x, t)) :
    (u = id ∧ x = name ∧ t = s') ∨ (x ≠ name ∧ r.member u = some (x, t)) := by
  obtain hself | ⟨hne, hu'⟩ := update_cases hu
  · exact .inl hself
  · refine .inr ⟨?_, hu'⟩
    rintro rfl
    exact hne (h.name_inj hu' hm)

variable [DecidableEq ν] {id : ℕ} {name : ν} {s : Standing}

theorem join_eq (hm : r.member id = some (name, s)) :
    r.join id =
      { nextId := r.nextId
        here := if s.away then Function.update r.here name (some id) else r.here
        gone := if s.away then Function.update r.gone name none else r.gone
        member := Function.update r.member id (some (name, ⟨true, false⟩)) } := by
  rw [join, hm]

theorem leave_eq (hm : r.member id = some (name, s)) :
    r.leave id =
      { nextId := r.nextId
        here := Function.update r.here name none
        gone := if s.away then r.gone else Function.update r.gone name (some id)
        member := Function.update r.member id (some (name, ⟨false, true⟩)) } := by
  rw [leave, hm]

theorem nextId_join (r : Roster ν) (id : ℕ) : (r.join id).nextId = r.nextId := by
  unfold join
  split <;> rfl

theorem nextId_leave (r : Roster ν) (id : ℕ) : (r.leave id).nextId = r.nextId := by
  unfold leave
  split <;> rfl

/-! ## What the operations keep -/

theorem Indexed.enter (h : r.Indexed) (hname : r.find name = none) :
    (r.enter name).Indexed := by
  -- the name of a member from before is not the new one
  have hne : ∀ {u x t}, r.member u = some (x, t) → x ≠ name := by
    rintro u x t hm rfl
    exact Option.some_ne_none _ ((h.find hm).symm.trans hname)
  constructor
  · intro u x t hu haway
    obtain ⟨rfl, rfl, rfl⟩ | ⟨-, hu⟩ := update_cases hu
    · exact Function.update_self ..
    · exact (Function.update_of_ne (hne hu) ..).trans (h.here hu haway)
  · intro u x t hu haway
    obtain ⟨rfl, rfl, rfl⟩ | ⟨-, hu⟩ := update_cases hu
    · exact absurd haway Bool.false_ne_true
    · obtain ⟨hhere, hgone⟩ := h.gone hu haway
      exact ⟨(Function.update_of_ne (hne hu) ..).trans hhere, hgone⟩

theorem Indexed.join (h : r.Indexed) (id : ℕ) : (r.join id).Indexed := by
  cases hm : r.member id with
  | none => rwa [Roster.join, hm]
  | some p =>
    obtain ⟨name, s⟩ := p
    rw [join_eq hm]
    constructor
    · intro u x t hu haway
      obtain ⟨rfl, rfl, rfl⟩ | ⟨hne, hu⟩ := h.moved_cases hm hu
      · cases hs : s.away with
        | false => exact h.here hm hs
        | true => exact Function.update_self ..
      · cases s.away with
        | false => exact h.here hu haway
        | true => exact (Function.update_of_ne hne ..).trans (h.here hu haway)
    · intro u x t hu haway
      obtain ⟨rfl, rfl, rfl⟩ | ⟨hne, hu⟩ := h.moved_cases hm hu
      · exact absurd haway Bool.false_ne_true
      · obtain ⟨hhere, hgone⟩ := h.gone hu haway
        cases s.away with
        | false => exact ⟨hhere, hgone⟩
        | true =>
          exact ⟨(Function.update_of_ne hne ..).trans hhere,
            (Function.update_of_ne hne ..).trans hgone⟩

theorem Indexed.leave (h : r.Indexed) (id : ℕ) : (r.leave id).Indexed := by
  cases hm : r.member id with
  | none => rwa [Roster.leave, hm]
  | some p =>
    obtain ⟨name, s⟩ := p
    rw [leave_eq hm]
    constructor
    · intro u x t hu haway
      obtain ⟨rfl, rfl, rfl⟩ | ⟨hne, hu⟩ := h.moved_cases hm hu
      · exact absurd haway.symm Bool.false_ne_true
      · exact (Function.update_of_ne hne ..).trans (h.here hu haway)
    · intro u x t hu haway
      obtain ⟨rfl, rfl, rfl⟩ | ⟨hne, hu⟩ := h.moved_cases hm hu
      · refine ⟨Function.update_self .., ?_⟩
        cases hs : s.away with
        | false => exact Function.update_self ..
        | true => exact (h.gone hm hs).2
      · obtain ⟨hhere, hgone⟩ := h.gone hu haway
        refine ⟨(Function.update_of_ne hne ..).trans hhere, ?_⟩
        cases s.away with
        | false => exact (Function.update_of_ne hne ..).trans hgone
        | true => exact hgone

theorem Indexed.step (h : r.Indexed) {e : Op ν} (hfresh : r.Fresh e) : (r.step e).Indexed := by
  cases e with
  | enter name => exact h.enter hfresh
  | join id => exact h.join id
  | leave id => exact h.leave id

theorem find_enter (r : Roster ν) (name : ν) :
    (r.enter name).find = Function.update r.find name (some r.nextId) := by
  funext x
  show (Function.update r.here name (some r.nextId) x).or (r.gone x) = _
  by_cases hx : x = name
  · subst hx
    rw [Function.update_self, Function.update_self, Option.some_or]
  · rw [Function.update_of_ne hx, Function.update_of_ne hx, find]

/-- A member that joins or leaves is found as before. -/
theorem find_join (h : r.Indexed) (id : ℕ) : (r.join id).find = r.find := by
  cases hm : r.member id with
  | none => rw [join, hm]
  | some p =>
    obtain ⟨name, s⟩ := p
    funext x
    by_cases hx : x = name
    · subst hx
      have hjoin : (r.join id).member id = some (x, ⟨true, false⟩) := by
        rw [join_eq hm]
        exact Function.update_self ..
      rw [(h.join id).find hjoin, h.find hm]
    · rw [join_eq hm]
      cases s.away <;> simp [find, Function.update_of_ne hx]

theorem find_leave (h : r.Indexed) (id : ℕ) : (r.leave id).find = r.find := by
  cases hm : r.member id with
  | none => rw [leave, hm]
  | some p =>
    obtain ⟨name, s⟩ := p
    funext x
    by_cases hx : x = name
    · subst hx
      have hleave : (r.leave id).member id = some (x, ⟨false, true⟩) := by
        rw [leave_eq hm]
        exact Function.update_self ..
      rw [(h.leave id).find hleave, h.find hm]
    · rw [leave_eq hm]
      cases s.away <;> simp [find, Function.update_of_ne hx]

theorem Sound.step (h : r.Sound) {e : Op ν} (hfresh : r.Fresh e) : (r.step e).Sound := by
  refine ⟨h.toIndexed.step hfresh, fun {u x t} hu haway => ?_⟩
  cases e with
  | enter name =>
    obtain ⟨rfl, rfl, rfl⟩ | ⟨-, hu⟩ := update_cases hu
    · rfl
    · exact h.idle hu haway
  | join id =>
    cases hm : r.member id with
    | none => exact h.idle (by rwa [Roster.step, join, hm] at hu) haway
    | some p =>
      rw [Roster.step, join_eq hm] at hu
      obtain ⟨rfl, rfl, rfl⟩ | ⟨-, hu⟩ := update_cases hu
      · exact absurd haway Bool.false_ne_true
      · exact h.idle hu haway
  | leave id =>
    cases hm : r.member id with
    | none => exact h.idle (by rwa [Roster.step, leave, hm] at hu) haway
    | some p =>
      rw [Roster.step, leave_eq hm] at hu
      obtain ⟨rfl, rfl, rfl⟩ | ⟨-, hu⟩ := update_cases hu
      · rfl
      · exact h.idle hu haway

end

end Roster
