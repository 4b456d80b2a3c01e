import Mathlib.Data.List.Count
import Mathlib.Data.List.Perm.Basic
import Mathlib.Logic.Function.Basic

/-!
# Windows with a reference count

An owner takes memory from the end of its current window. A window counts the cells
that were taken from it and are still in use, and one more while it is the current
window of its owner; it is freed when the count is 0. A current window that no cell
of is in use starts again from its beginning.

The lists of cells in use are not part of the store: a program keeps them in its own
data, and `Sound` says what the store must look like for them. A window that nothing
refers to may be left; `Used` says that there is none.
-/

namespace RefWindow

/-- A window; its parts are in words. -/
structure Window (κ : Type*) where
  owner : κ
  size : ℕ
  off : ℕ
  avail : ℕ
  refs : ℕ

/-- Memory taken from a window. -/
structure Cell where
  window : ℕ
  off : ℕ
  words : ℕ
deriving DecidableEq

structure Store (κ : Type*) where
  windows : ℕ → Option (Window κ)
  nextWindow : ℕ
  current : κ → Option ℕ

variable {κ : Type*}

/-- The words that hold the bytes. -/
def wordsOf (bytes : ℕ) : ℕ := (bytes + 7) / 8

namespace Window

/-- The window if the bytes fit into it, at its end or, if it is not used, at its
beginning. -/
def fits (win : Window κ) (bytes : ℕ) : Option (Window κ) :=
  if bytes ≤ win.avail * 8 then some win
  else if 1 < win.refs then none
  else if win.size * 8 < bytes then none
  else some { win with off := 0, avail := win.size }

def bump (win : Window κ) (bytes : ℕ) : Window κ :=
  { win with
    off := win.off + wordsOf bytes
    avail := win.avail - wordsOf bytes
    refs := win.refs + 1 }

end Window

namespace Store

variable (a : Store κ)

def setWindow (w : ℕ) (win : Option (Window κ)) : Store κ :=
  { a with windows := Function.update a.windows w win }

/-- One reference less. -/
def deref (w : ℕ) : Store κ :=
  a.setWindow w ((a.windows w).map fun win => { win with refs := win.refs - 1 })

/-- One reference less, and the window is freed with the last one. -/
def derefDelete (w : ℕ) : Store κ :=
  a.setWindow w ((a.windows w).bind fun win =>
    if win.refs - 1 = 0 then none else some { win with refs := win.refs - 1 })

variable [DecidableEq κ]

/-- A new current window of `base` words, or of more if the bytes need more. -/
def newWindow (base : ℕ) (k : κ) (bytes : ℕ) : Store κ :=
  let size := if base * 8 < bytes then wordsOf bytes else base
  { a.setWindow a.nextWindow (some ⟨k, size, 0, size, 1⟩) with
    nextWindow := a.nextWindow + 1
    current := Function.update a.current k (some a.nextWindow) }

/-- The current window, or a new one if the bytes do not fit. -/
def prepare (base : ℕ) (k : κ) (bytes : ℕ) : Store κ :=
  match a.current k with
  | none => a.newWindow base k bytes
  | some w =>
    match (a.windows w).bind (·.fits bytes) with
    | some win => a.setWindow w (some win)
    | none => (a.derefDelete w).newWindow base k bytes

/-- Takes the bytes from the window `w`. -/
def take (w bytes : ℕ) : Store κ × Cell :=
  (a.setWindow w ((a.windows w).map (·.bump bytes)),
    ⟨w, ((a.windows w).map Window.off).getD 0, wordsOf bytes⟩)

def alloc (base : ℕ) (k : κ) (bytes : ℕ) : Store κ × Cell :=
  let a := a.prepare base k bytes
  a.take ((a.current k).getD 0) bytes

end Store

/-! ## What the cells in use tell of the store -/

/-- The cells do not overlap, if they are of one window. -/
def Apart (c d : Cell) : Prop :=
  c.window = d.window → c.off + c.words ≤ d.off ∨ d.off + d.words ≤ c.off

theorem Apart.symm {c d : Cell} (h : Apart c d) : Apart d c := fun heq => (h heq.symm).symm

/-- The number of references to the window. -/
def held (a : Store κ) (live : κ → List Cell) (k : κ) (w : ℕ) : ℕ :=
  (live k).countP (fun c => c.window = w) + if a.current k = some w then 1 else 0

theorem held_of_current {a : Store κ} {k : κ} {w : ℕ} (live : κ → List Cell)
    (h : a.current k = some w) :
    held a live k w = (live k).countP (fun c => c.window = w) + 1 := by
  rw [held, if_pos h]

theorem held_of_not_current {a : Store κ} {k : κ} {w : ℕ} (live : κ → List Cell)
    (h : a.current k ≠ some w) : held a live k w = (live k).countP (fun c => c.window = w) := by
  rw [held, if_neg h, Nat.add_zero]

theorem held_pos_iff {a : Store κ} {live : κ → List Cell} {k : κ} {w : ℕ} :
    0 < held a live k w ↔ a.current k = some w ∨ ∃ c ∈ live k, c.window = w := by
  unfold held
  rw [Nat.add_pos_iff_pos_or_pos, List.countP_pos_iff, or_comm]
  refine or_congr ?_ ?_
  · by_cases hcur : a.current k = some w
    · simp [hcur]
    · simp [hcur]
  · simp

/-- Every window is referred to. -/
def Used (a : Store κ) : Prop := ∀ w win, a.windows w = some win → 0 < win.refs

/-- `live` are the cells in use of each owner. -/
structure Sound (a : Store κ) (live : κ → List Cell) : Prop where
  refs : ∀ {w win}, a.windows w = some win → win.refs = held a live win.owner w
  cell : ∀ {k c}, c ∈ live k →
    ∃ win, a.windows c.window = some win ∧ win.owner = k ∧ c.off + c.words ≤ win.off
  current : ∀ {k w}, a.current k = some w → ∃ win, a.windows w = some win ∧ win.owner = k
  fresh : ∀ {w}, a.nextWindow ≤ w → a.windows w = none
  room : ∀ {w win}, a.windows w = some win → win.off + win.avail = win.size
  apart : ∀ k, (live k).Pairwise Apart

section

variable {a : Store κ} {live live' : κ → List Cell} {k : κ} {w bytes base : ℕ} {c : Cell}
  {win : Window κ}

theorem Sound.perm (h : Sound a live) (hp : ∀ k, (live' k).Perm (live k)) : Sound a live' where
  refs hw := by
    rw [h.refs hw, held, held, (hp _).countP_eq]
  cell hc := h.cell ((hp _).mem_iff.1 hc)
  current := h.current
  fresh := h.fresh
  room := h.room
  apart k := (hp k).pairwise_iff Apart.symm |>.2 (h.apart k)

/-- A window that an owner refers to is there, and it is of the owner. -/
theorem Sound.owner_of_held (h : Sound a live) (hk : 0 < held a live k w) :
    ∃ win, a.windows w = some win ∧ win.owner = k := by
  by_cases hcur : a.current k = some w
  · exact h.current hcur
  · rw [held_of_not_current live hcur] at hk
    obtain ⟨c, hc, heq⟩ := List.countP_pos_iff.1 hk
    obtain ⟨win, hwin, howner, -⟩ := h.cell hc
    rw [decide_eq_true_eq] at heq
    exact ⟨win, heq ▸ hwin, howner⟩

/-- A window of an owner is there if and only if the owner refers to it. -/
theorem Sound.owner_iff (h : Sound a live) (hused : Used a) :
    (∃ win, a.windows w = some win ∧ win.owner = k) ↔ 0 < held a live k w := by
  constructor
  · rintro ⟨win, hwin, rfl⟩
    exact h.refs hwin ▸ hused w win hwin
  · exact h.owner_of_held

theorem Sound.held_eq_zero (h : Sound a live) (hw : a.windows w = none) (k : κ) :
    held a live k w = 0 := by
  by_contra hne
  obtain ⟨win, hwin, -⟩ := h.owner_of_held (Nat.pos_of_ne_zero hne)
  rw [hw] at hwin
  cases hwin

/-- The current window starts again, or stays as it is. -/
theorem Sound.fits (h : Sound a live) (hcur : a.current k = some w)
    (hwin : a.windows w = some win) {win' : Window κ} (hfits : win.fits bytes = some win') :
    Sound (a.setWindow w (some win')) live ∧ win'.owner = k ∧ bytes ≤ win'.avail * 8 := by
  obtain ⟨win₀, hwin₀, howner⟩ := h.current hcur
  obtain rfl : win₀ = win := Option.some.inj (hwin₀.symm.trans hwin)
  unfold Window.fits at hfits
  split at hfits
  · next hle =>
    obtain rfl := Option.some.inj hfits
    rw [show a.setWindow w (some win₀) = a by
      rw [Store.setWindow, ← hwin₀, Function.update_eq_self]]
    exact ⟨h, howner, hle⟩
  · split at hfits
    · cases hfits
    · next hrefs =>
      split at hfits
      · cases hfits
      · next hsize =>
        obtain rfl := Option.some.inj hfits
        refine ⟨?_, howner, Nat.le_of_not_lt hsize⟩
        have hself : ∀ x, (a.setWindow w (some x)).windows w = some x :=
          fun x => Function.update_self _ _ _
        have hother : ∀ {v} x, v ≠ w → (a.setWindow w (some x)).windows v = a.windows v :=
          fun x hv => Function.update_of_ne hv _ _
        -- the window is current and has one reference: no cell of it is in use
        have hcount : ∀ k', ∀ d ∈ live k', d.window ≠ w := by
          intro k' d hd heq
          obtain ⟨x, hx, hown, -⟩ := h.cell hd
          rw [heq, hwin₀] at hx
          obtain rfl := Option.some.inj hx
          have hone := h.refs hwin₀
          unfold held at hone
          rw [howner, hcur, if_pos rfl] at hone
          have hpos : 0 < (live k).countP (fun c => c.window = w) :=
            List.countP_pos_iff.2 ⟨d, (hown.symm.trans howner) ▸ hd, by simpa using heq⟩
          omega
        refine ⟨?_, ?_, ?_, ?_, ?_, h.apart⟩
        · intro v x hx
          by_cases hv : v = w
          · subst hv
            rw [hself] at hx
            obtain rfl := Option.some.inj hx
            have hrefs₀ := h.refs hwin₀
            exact hrefs₀
          · rw [hother _ hv] at hx
            exact h.refs hx
        · intro k' d hd
          obtain ⟨x, hx, hrest⟩ := h.cell hd
          exact ⟨x, (hother _ (hcount k' d hd)).trans hx, hrest⟩
        · intro k' v hv
          obtain ⟨x, hx, hown⟩ := h.current hv
          by_cases hvw : v = w
          · subst hvw
            rw [hwin₀] at hx
            obtain rfl := Option.some.inj hx
            exact ⟨_, hself _, hown⟩
          · exact ⟨x, (hother _ hvw).trans hx, hown⟩
        · intro v hv
          have hfresh := h.fresh hv
          have hne : v ≠ w := by
            rintro rfl
            rw [hwin₀] at hfresh
            cases hfresh
          rw [hother _ hne, hfresh]
        · intro v x hx
          by_cases hv : v = w
          · subst hv
            rw [hself] at hx
            obtain rfl := Option.some.inj hx
            exact Nat.zero_add _
          · rw [hother _ hv] at hx
            exact h.room hx

/-! ### Release -/

theorem foldl_deref_current (cs : List Cell) (a : Store κ) :
    (cs.foldl (fun a c => a.deref c.window) a).current = a.current := by
  induction cs generalizing a with
  | nil => rfl
  | cons c cs ih => exact ih (a.deref c.window)

theorem foldl_deref_windows (cs : List Cell) (a : Store κ) (hne : ∀ c ∈ cs, c.window ≠ w) :
    (cs.foldl (fun a c => a.deref c.window) a).windows w = a.windows w := by
  induction cs generalizing a with
  | nil => rfl
  | cons c cs ih =>
    refine (ih (a.deref c.window) fun d hd => hne d (List.mem_cons_of_mem _ hd)).trans ?_
    exact Function.update_of_ne (Ne.symm (hne c List.mem_cons_self)) _ _

/-- `deref` never frees a window. -/
theorem foldl_deref_owner (cs : List Cell) (h : ∃ win, a.windows w = some win ∧ win.owner = k) :
    ∃ win, (cs.foldl (fun a c => a.deref c.window) a).windows w = some win ∧ win.owner = k := by
  induction cs generalizing a with
  | nil => exact h
  | cons c cs ih =>
    obtain ⟨win, hwin, howner⟩ := h
    refine ih ?_
    by_cases hw : w = c.window
    · subst hw
      refine ⟨{ win with refs := win.refs - 1 }, ?_, howner⟩
      exact (Function.update_self _ _ _).trans (by rw [hwin, Option.map_some])
    · exact ⟨win, (Function.update_of_ne hw _ _).trans hwin, howner⟩

variable [DecidableEq κ]

/-- One more cell in use. -/
def addCell (live : κ → List Cell) (k : κ) (c : Cell) : κ → List Cell :=
  Function.update live k (c :: live k)

theorem held_addCell_self (a : Store κ) (live : κ → List Cell) (k : κ) (c : Cell) :
    held a (addCell live k c) k c.window = held a live k c.window + 1 := by
  unfold held addCell
  rw [Function.update_self, List.countP_cons_of_pos (by simp)]
  omega

theorem held_addCell_of_ne (a : Store κ) (live : κ → List Cell) {k k' : κ}
    (hne : k' ≠ k ∨ c.window ≠ w) : held a (addCell live k c) k' w = held a live k' w := by
  unfold held addCell
  by_cases hk : k' = k
  · subst hk
    have hw : c.window ≠ w := hne.resolve_left fun hne => hne rfl
    rw [Function.update_self, List.countP_cons_of_neg (by simpa using hw)]
  · rw [Function.update_of_ne hk]

theorem mem_addCell {k' : κ} {d : Cell} (hd : d ∈ live k') : d ∈ addCell live k c k' := by
  unfold addCell
  by_cases hk : k' = k
  · subst hk
    rw [Function.update_self]
    exact List.mem_cons_of_mem _ hd
  · rwa [Function.update_of_ne hk]

theorem Sound.cell_addCell (h : Sound a (addCell live k c)) :
    ∃ win, a.windows c.window = some win ∧ win.owner = k ∧
      win.refs = held a live k c.window + 1 := by
  have hmem : c ∈ addCell live k c k := by
    rw [addCell, Function.update_self]
    exact List.mem_cons_self
  obtain ⟨win, hwin, howner, -⟩ := h.cell hmem
  refine ⟨win, hwin, howner, ?_⟩
  rw [h.refs hwin, howner, held_addCell_self]

/-- The store after one reference to the window of `c` is given up: `win'` is what is
left of the window. -/
theorem Sound.setWindow_release (h : Sound a (addCell live k c)) {win' : Option (Window κ)}
    (hwin : a.windows c.window = some win)
    (hsome : ∀ x, win' = some x → x = { win with refs := win.refs - 1 })
    (hnone : win' = none → held a live k c.window = 0) :
    Sound (a.setWindow c.window win') live := by
  obtain ⟨win₀, hwin₀, howner, hrefs⟩ := h.cell_addCell
  obtain rfl : win₀ = win := Option.some.inj (hwin₀.symm.trans hwin)
  have hself : (a.setWindow c.window win').windows c.window = win' := Function.update_self _ _ _
  have hother : ∀ {v}, v ≠ c.window → (a.setWindow c.window win').windows v = a.windows v :=
    fun hv => Function.update_of_ne hv _ _
  have hlive : ∀ {v x}, (a.setWindow c.window win').windows v = some x →
      ∃ y, a.windows v = some y ∧ x.owner = y.owner ∧ x.off = y.off ∧ x.avail = y.avail ∧
        x.size = y.size := by
    intro v x hx
    by_cases hv : v = c.window
    · subst hv
      rw [hself] at hx
      obtain rfl := hsome x hx
      exact ⟨win₀, hwin₀, rfl, rfl, rfl, rfl⟩
    · rw [hother hv] at hx
      exact ⟨x, hx, rfl, rfl, rfl, rfl⟩
  have hcount : ∀ {v x}, (a.setWindow c.window win').windows v = some x →
      x.refs = held a live x.owner v := by
    intro v x hx
    by_cases hv : v = c.window
    · subst hv
      rw [hself] at hx
      obtain rfl := hsome x hx
      rw [show ({ win₀ with refs := win₀.refs - 1 } : Window κ).owner = k from howner]
      show win₀.refs - 1 = _
      rw [hrefs]
      exact Nat.add_sub_cancel _ _
    · rw [hother hv] at hx
      rw [h.refs hx]
      exact held_addCell_of_ne a live (Or.inr (Ne.symm hv))
  -- a window that something refers to is not freed
  have hkeep : ∀ {v x k'}, a.windows v = some x → 0 < held a live k' v → x.owner = k' →
      ∃ y, (a.setWindow c.window win').windows v = some y ∧ y.owner = x.owner ∧ y.off = x.off := by
    intro v x k' hx hpos hk'
    by_cases hv : v = c.window
    · subst hv
      obtain rfl : win₀ = x := Option.some.inj (hwin₀.symm.trans hx)
      rcases hw : win' with _ | y
      · have hzero := hnone hw
        rw [← hk', howner, hzero] at hpos
        exact absurd hpos (Nat.lt_irrefl 0)
      · rw [← hw, hself, hw]
        obtain rfl := hsome y hw
        exact ⟨_, rfl, rfl, rfl⟩
    · rw [hother hv]
      exact ⟨x, hx, rfl, rfl⟩
  refine ⟨hcount, ?_, ?_, ?_, ?_, ?_⟩
  · intro k' d hd
    obtain ⟨x, hx, hown, hoff⟩ := h.cell (mem_addCell hd)
    have hpos : 0 < held a live k' d.window :=
      Nat.add_pos_left (List.countP_pos_iff.2 ⟨d, hd, by simp⟩) _
    obtain ⟨y, hy, hyown, hyoff⟩ := hkeep hx hpos hown
    exact ⟨y, hy, hyown.trans hown, hyoff ▸ hoff⟩
  · intro k' v hcur
    obtain ⟨x, hx, hown⟩ := h.current hcur
    have hpos : 0 < held a live k' v := by
      unfold held
      rw [if_pos (show a.current k' = some v from hcur)]
      exact Nat.succ_pos _
    obtain ⟨y, hy, hyown, -⟩ := hkeep hx hpos hown
    exact ⟨y, hy, hyown.trans hown⟩
  · intro v hv
    have hfresh := h.fresh hv
    have hne : v ≠ c.window := by
      rintro rfl
      rw [hwin₀] at hfresh
      cases hfresh
    rw [hother hne, hfresh]
  · intro v x hx
    obtain ⟨y, hy, -, hoff, havail, hsize⟩ := hlive hx
    rw [hoff, havail, hsize]
    exact h.room hy
  · intro k'
    have hap := h.apart k'
    unfold addCell at hap
    by_cases hk' : k' = k
    · subst hk'
      rw [Function.update_self] at hap
      exact hap.of_cons
    · rwa [Function.update_of_ne hk'] at hap

/-- A cell that is given up with `derefDelete`. -/
theorem Sound.derefDelete (h : Sound a (addCell live k c)) : Sound (a.derefDelete c.window) live := by
  obtain ⟨win, hwin, -, hrefs⟩ := h.cell_addCell
  refine h.setWindow_release hwin ?_ ?_
  · intro x hx
    rw [hwin, Option.bind_some] at hx
    split at hx
    · cases hx
    · exact (Option.some.inj hx).symm
  · rw [hwin, Option.bind_some]
    intro hx
    split at hx
    · omega
    · cases hx

/-- A cell that is given up with `deref`. -/
theorem Sound.deref (h : Sound a (addCell live k c)) : Sound (a.deref c.window) live := by
  obtain ⟨win, hwin, -, hrefs⟩ := h.cell_addCell
  refine h.setWindow_release hwin ?_ ?_
  · intro x hx
    rw [hwin, Option.map_some] at hx
    exact (Option.some.inj hx).symm
  · rw [hwin, Option.map_some]
    intro hx
    cases hx

/-! ### Release of many cells -/

/-- More cells in use. -/
def addCells (live : κ → List Cell) (k : κ) (cs : List Cell) : κ → List Cell :=
  Function.update live k (cs ++ live k)

theorem addCells_nil (live : κ → List Cell) (k : κ) : addCells live k [] = live :=
  Function.update_eq_self k live

theorem addCells_cons (live : κ → List Cell) (k : κ) (c : Cell) (cs : List Cell) :
    addCells live k (c :: cs) = addCell (addCells live k cs) k c := by
  unfold addCell addCells
  rw [Function.update_self, Function.update_idem, List.cons_append]

theorem held_addCells_of_ne (a : Store κ) (live : κ → List Cell) {k' : κ} {cs : List Cell}
    (hne : ∀ c ∈ cs, c.window ≠ w) : held a (addCells live k cs) k' w = held a live k' w := by
  induction cs with
  | nil => rw [addCells_nil]
  | cons c cs ih =>
    rw [addCells_cons, held_addCell_of_ne _ _ (Or.inr (hne c List.mem_cons_self)),
      ih fun d hd => hne d (List.mem_cons_of_mem _ hd)]

/-- Cells that are given up with `derefDelete`. -/
theorem Sound.foldl_derefDelete {cs : List Cell} (h : Sound a (addCells live k cs)) :
    Sound (cs.foldl (fun a c => a.derefDelete c.window) a) live := by
  induction cs generalizing a with
  | nil => rwa [addCells_nil] at h
  | cons c cs ih =>
    rw [addCells_cons] at h
    exact ih h.derefDelete

/-- Cells that are given up with `deref`. -/
theorem Sound.foldl_deref {cs : List Cell} (h : Sound a (addCells live k cs)) :
    Sound (cs.foldl (fun a c => a.deref c.window) a) live := by
  induction cs generalizing a with
  | nil => rwa [addCells_nil] at h
  | cons c cs ih =>
    rw [addCells_cons] at h
    exact ih h.deref

/-- No window is left unused if something else refers to those of the cells. -/
theorem Used.foldl_deref {cs : List Cell} (hused : Used a) (h : Sound a (addCells live k cs))
    (hpos : ∀ c ∈ cs, 0 < held a live k c.window) :
    Used (cs.foldl (fun a c => a.deref c.window) a) := by
  intro w win hwin
  have hsound := h.foldl_deref
  have hheld : ∀ k', held (cs.foldl (fun a c => a.deref c.window) a) live k' w =
      held a live k' w := by
    intro k'
    unfold held
    rw [foldl_deref_current]
  rw [hsound.refs hwin, hheld]
  by_cases hmem : ∃ c ∈ cs, c.window = w
  · obtain ⟨c, hc, rfl⟩ := hmem
    obtain ⟨win', hwin', howner⟩ := hsound.owner_of_held (hheld k ▸ hpos c hc)
    obtain rfl : win' = win := Option.some.inj (hwin'.symm.trans hwin)
    exact howner ▸ hpos c hc
  · have hsame := foldl_deref_windows cs a fun c hc heq => hmem ⟨c, hc, heq⟩
    rw [hsame] at hwin
    have hrefs := h.refs hwin
    rw [held_addCells_of_ne a live fun c hc heq => hmem ⟨c, hc, heq⟩] at hrefs
    exact hrefs ▸ hused w win hwin

/-! ### Allocation -/

theorem Sound.newWindow (h : Sound a live) (hnone : a.current k = none) (base bytes : ℕ) :
    Sound (a.newWindow base k bytes) live := by
  set size := if base * 8 < bytes then wordsOf bytes else base with hsize
  have hfree : a.windows a.nextWindow = none := h.fresh (Nat.le_refl _)
  have hself : (a.newWindow base k bytes).windows a.nextWindow = some ⟨k, size, 0, size, 1⟩ :=
    Function.update_self _ _ _
  have hother : ∀ {v}, v ≠ a.nextWindow →
      (a.newWindow base k bytes).windows v = a.windows v := fun hv => Function.update_of_ne hv _ _
  have hne : ∀ {v x}, a.windows v = some x → v ≠ a.nextWindow := by
    rintro v x hx rfl
    rw [hfree] at hx
    cases hx
  have hcurSelf : (a.newWindow base k bytes).current k = some a.nextWindow :=
    Function.update_self _ _ _
  have hcurOther : ∀ {k'}, k' ≠ k → (a.newWindow base k bytes).current k' = a.current k' :=
    fun hk => Function.update_of_ne hk _ _
  have hheld : ∀ {v} k', v ≠ a.nextWindow →
      held (a.newWindow base k bytes) live k' v = held a live k' v := by
    intro v k' hv
    by_cases hk : k' = k
    · subst hk
      have hnot : a.current k' ≠ some v := by
        rw [hnone]
        exact fun heq => by cases heq
      have hnot' : (a.newWindow base k' bytes).current k' ≠ some v := by
        rw [hcurSelf]
        exact fun heq => hv (Option.some.inj heq).symm
      rw [held_of_not_current live hnot, held_of_not_current live hnot']
    · unfold held
      rw [hcurOther hk]
  have hnew : held (a.newWindow base k bytes) live k a.nextWindow = 1 := by
    have hzero := h.held_eq_zero hfree k
    rw [held_of_current live hcurSelf]
    unfold held at hzero
    omega
  refine ⟨?_, ?_, ?_, ?_, ?_, h.apart⟩
  · intro v x hx
    by_cases hv : v = a.nextWindow
    · subst hv
      rw [hself] at hx
      obtain rfl := Option.some.inj hx
      exact hnew.symm
    · rw [hother hv] at hx
      rw [hheld _ hv]
      exact h.refs hx
  · intro k' d hd
    obtain ⟨x, hx, hrest⟩ := h.cell hd
    exact ⟨x, (hother (hne hx)).trans hx, hrest⟩
  · intro k' v hcur
    have hcur' : Function.update a.current k (some a.nextWindow) k' = some v := hcur
    by_cases hk : k' = k
    · subst hk
      rw [Function.update_self] at hcur'
      obtain rfl := Option.some.inj hcur'
      exact ⟨_, hself, rfl⟩
    · rw [Function.update_of_ne hk] at hcur'
      obtain ⟨x, hx, hown⟩ := h.current hcur'
      exact ⟨x, (hother (hne hx)).trans hx, hown⟩
  · intro v hv
    have hlt : a.nextWindow < v := hv
    rw [hother (Nat.ne_of_gt hlt)]
    exact h.fresh (Nat.le_of_lt hlt)
  · intro v x hx
    by_cases hv : v = a.nextWindow
    · subst hv
      rw [hself] at hx
      obtain rfl := Option.some.inj hx
      exact Nat.zero_add _
    · rw [hother hv] at hx
      exact h.room hx

/-- The reference of the owner, as a cell of no words. -/
theorem Sound.unsetCurrent (h : Sound a live) (hcur : a.current k = some w) :
    Sound { a with current := Function.update a.current k none }
      (addCell live k ⟨w, 0, 0⟩) := by
  obtain ⟨win, hwin, howner⟩ := h.current hcur
  have hcurSelf : (Function.update a.current k none) k = none := Function.update_self _ _ _
  have hheld : ∀ k' v, held { a with current := Function.update a.current k none }
      (addCell live k ⟨w, 0, 0⟩) k' v = held a live k' v := by
    intro k' v
    by_cases hk : k' = k
    · subst hk
      have hnot : ∀ v, ({ a with current := Function.update a.current k' none } :
          Store κ).current k' ≠ some v := by
        intro v heq
        exact absurd (hcurSelf.symm.trans heq) (by simp)
      by_cases hv : v = w
      · subst hv
        exact (held_addCell_self _ _ _ _).trans
          ((congrArg (· + 1) (held_of_not_current live (hnot v))).trans
            (held_of_current live hcur).symm)
      · have hne : a.current k' ≠ some v := by
          rw [hcur]
          exact fun heq => hv (Option.some.inj heq).symm
        rw [held_addCell_of_ne _ _ (Or.inr (Ne.symm hv)), held_of_not_current live (hnot v),
          held_of_not_current live hne]
    · rw [held_addCell_of_ne _ _ (Or.inl hk)]
      unfold held
      rw [show ({ a with current := Function.update a.current k none } : Store κ).current k' =
        a.current k' from Function.update_of_ne hk _ _]
  refine ⟨fun hx => (h.refs hx).trans (hheld _ _).symm, ?_, ?_, h.fresh, h.room, ?_⟩
  · intro k' d hd
    unfold addCell at hd
    by_cases hk : k' = k
    · subst hk
      rw [Function.update_self] at hd
      rcases List.mem_cons.1 hd with rfl | hd
      · exact ⟨win, hwin, howner, Nat.zero_le _⟩
      · exact h.cell hd
    · rw [Function.update_of_ne hk] at hd
      exact h.cell hd
  · intro k' v hv
    have hv' : Function.update a.current k none k' = some v := hv
    by_cases hk : k' = k
    · subst hk
      rw [Function.update_self] at hv'
      cases hv'
    · rw [Function.update_of_ne hk] at hv'
      exact h.current hv'
  · intro k'
    unfold addCell
    by_cases hk : k' = k
    · subst hk
      rw [Function.update_self]
      exact (h.apart k').cons fun d _ _ => Or.inl (Nat.zero_le _)
    · rw [Function.update_of_ne hk]
      exact h.apart k'

/-- The window that memory is taken from, with room for the bytes. -/
theorem Sound.prepare (h : Sound a live) (base : ℕ) (k : κ) (bytes : ℕ) :
    Sound (a.prepare base k bytes) live ∧ ∃ w win, (a.prepare base k bytes).current k = some w ∧
      (a.prepare base k bytes).windows w = some win ∧ win.owner = k ∧ bytes ≤ win.avail * 8 := by
  have hroom : ∀ {a : Store κ}, ∃ w win, (a.newWindow base k bytes).current k = some w ∧
      (a.newWindow base k bytes).windows w = some win ∧ win.owner = k ∧
      bytes ≤ win.avail * 8 := by
    intro a
    refine ⟨_, _, Function.update_self _ _ _, Function.update_self _ _ _, rfl, ?_⟩
    dsimp only
    split
    · unfold wordsOf
      omega
    · next hle => exact Nat.le_of_not_lt hle
  unfold Store.prepare
  split
  · next hnone => exact ⟨h.newWindow hnone base bytes, hroom⟩
  · next w hcur =>
    obtain ⟨win, hwin, howner⟩ := h.current hcur
    split
    · next win' hfits =>
      rw [hwin, Option.bind_some] at hfits
      obtain ⟨hsound, howner', hle⟩ := h.fits hcur hwin hfits
      exact ⟨hsound, w, win', hcur, Function.update_self _ _ _, howner', hle⟩
    · refine ⟨?_, hroom⟩
      -- the owner gives up its reference, and then has no current window
      have hgiven := (h.unsetCurrent hcur).derefDelete
      have hnew := hgiven.newWindow (k := k) (Function.update_self _ _ _) base bytes
      rw [show (a.derefDelete w).newWindow base k bytes =
        (({ a with current := Function.update a.current k none } : Store κ).derefDelete
          w).newWindow base k bytes by
        simp [Store.newWindow, Store.derefDelete, Store.setWindow]]
      exact hnew

/-- Memory from the end of a window that has room for it. -/
theorem Sound.take (h : Sound a live) (hwin : a.windows w = some win) (howner : win.owner = k)
    (hle : bytes ≤ win.avail * 8) :
    Sound (a.take w bytes).1 (addCell live k (a.take w bytes).2) := by
  have hwords : wordsOf bytes ≤ win.avail := by
    unfold wordsOf
    omega
  have hcell : (a.take w bytes).2 = ⟨w, win.off, wordsOf bytes⟩ := by
    rw [Store.take, hwin]
    rfl
  have hself : (a.take w bytes).1.windows w = some (win.bump bytes) := by
    rw [Store.take, hwin]
    exact Function.update_self _ _ _
  have hother : ∀ {v}, v ≠ w → (a.take w bytes).1.windows v = a.windows v :=
    fun hv => Function.update_of_ne hv _ _
  have hheld : ∀ k' v, held (a.take w bytes).1 live k' v = held a live k' v := fun _ _ => rfl
  rw [hcell]
  refine ⟨?_, ?_, ?_, ?_, ?_, ?_⟩
  · intro v x hx
    by_cases hv : v = w
    · subst hv
      rw [hself] at hx
      obtain rfl := Option.some.inj hx
      rw [show (win.bump bytes).owner = k from howner]
      refine Eq.trans ?_ (held_addCell_self _ live k ⟨v, win.off, wordsOf bytes⟩).symm
      rw [hheld, ← howner, ← h.refs hwin]
      rfl
    · rw [hother hv] at hx
      rw [h.refs hx]
      exact (held_addCell_of_ne _ live (Or.inr (Ne.symm hv))).symm
  · intro k' d hd
    have hlive : ∀ {d}, d ∈ live k' → ∃ x, (a.take w bytes).1.windows d.window = some x ∧
        x.owner = k' ∧ d.off + d.words ≤ x.off := by
      intro d hd
      obtain ⟨x, hx, hown, hoff⟩ := h.cell hd
      by_cases hv : d.window = w
      · rw [hv] at hx ⊢
        obtain rfl := Option.some.inj (hwin.symm.trans hx)
        exact ⟨_, hself, hown, Nat.le_trans hoff (Nat.le_add_right _ _)⟩
      · exact ⟨x, (hother hv).trans hx, hown, hoff⟩
    unfold addCell at hd
    by_cases hk : k' = k
    · subst hk
      rw [Function.update_self] at hd
      rcases List.mem_cons.1 hd with rfl | hd
      · exact ⟨_, hself, howner, Nat.le_refl _⟩
      · exact hlive hd
    · rw [Function.update_of_ne hk] at hd
      exact hlive hd
  · intro k' v hv
    obtain ⟨x, hx, hown⟩ := h.current hv
    by_cases hvw : v = w
    · subst hvw
      obtain rfl := Option.some.inj (hwin.symm.trans hx)
      exact ⟨_, hself, hown⟩
    · exact ⟨x, (hother hvw).trans hx, hown⟩
  · intro v hv
    have hfresh := h.fresh hv
    have hne : v ≠ w := by
      rintro rfl
      rw [hwin] at hfresh
      cases hfresh
    rw [hother hne, hfresh]
  · intro v x hx
    by_cases hv : v = w
    · subst hv
      rw [hself] at hx
      obtain rfl := Option.some.inj hx
      have hroom := h.room hwin
      show win.off + wordsOf bytes + (win.avail - wordsOf bytes) = win.size
      omega
    · rw [hother hv] at hx
      exact h.room hx
  · intro k'
    unfold addCell
    by_cases hk : k' = k
    · subst hk
      rw [Function.update_self]
      refine (h.apart k').cons fun d hd heq => Or.inr ?_
      obtain ⟨x, hx, -, hoff⟩ := h.cell hd
      rw [← show w = d.window from heq] at hx
      obtain rfl := Option.some.inj (hwin.symm.trans hx)
      exact hoff
    · rw [Function.update_of_ne hk]
      exact h.apart k'

theorem Sound.alloc (h : Sound a live) (base : ℕ) (k : κ) (bytes : ℕ) :
    Sound (a.alloc base k bytes).1 (addCell live k (a.alloc base k bytes).2) := by
  obtain ⟨hsound, w, win, hcur, hwin, howner, hle⟩ := h.prepare base k bytes
  unfold Store.alloc
  dsimp only
  rw [hcur, Option.getD_some]
  exact hsound.take hwin howner hle

/-- The cell is of the window that is current then. -/
theorem Sound.current_alloc (h : Sound a live) (base : ℕ) (k : κ) (bytes : ℕ) :
    (a.alloc base k bytes).1.current k = some (a.alloc base k bytes).2.window := by
  obtain ⟨-, w, win, hcur, -⟩ := h.prepare base k bytes
  unfold Store.alloc
  dsimp only
  rw [hcur, Option.getD_some]
  exact hcur

/-- Memory is taken from the window that is current then. -/
theorem current_alloc (a : Store κ) (base : ℕ) (k : κ) (bytes : ℕ) :
    (a.alloc base k bytes).1.current k = some (a.alloc base k bytes).2.window := by
  have hprepare : ∃ w, (a.prepare base k bytes).current k = some w := by
    unfold Store.prepare
    split
    · exact ⟨_, Function.update_self _ _ _⟩
    · next w hcur =>
      split
      · exact ⟨w, hcur⟩
      · exact ⟨_, Function.update_self _ _ _⟩
  obtain ⟨w, hw⟩ := hprepare
  show (a.prepare base k bytes).current k = some (((a.prepare base k bytes).current k).getD 0)
  rw [hw]
  rfl

/-! ### Windows that nothing refers to -/

omit [DecidableEq κ] in
theorem Used.setWindow (h : Used a) {win' : Option (Window κ)}
    (hpos : ∀ x, win' = some x → 0 < x.refs) : Used (a.setWindow w win') := by
  intro v x hx
  by_cases hv : v = w
  · subst hv
    have hself : (a.setWindow v win').windows v = win' := Function.update_self _ _ _
    exact hpos x (hself.symm.trans hx)
  · have hother : (a.setWindow w win').windows v = a.windows v := Function.update_of_ne hv _ _
    exact h v x (hother.symm.trans hx)

omit [DecidableEq κ] in
theorem Used.derefDelete (h : Used a) (w : ℕ) : Used (a.derefDelete w) := by
  refine h.setWindow fun x hx => ?_
  obtain ⟨win, -, hwin⟩ := Option.bind_eq_some_iff.1 hx
  split at hwin
  · cases hwin
  · next hne =>
    obtain rfl := Option.some.inj hwin
    exact Nat.pos_of_ne_zero hne

theorem Used.newWindow (h : Used a) (base : ℕ) (k : κ) (bytes : ℕ) :
    Used (a.newWindow base k bytes) := by
  have hset : Used (a.setWindow a.nextWindow (some ⟨k, if base * 8 < bytes then wordsOf bytes
      else base, 0, if base * 8 < bytes then wordsOf bytes else base, 1⟩)) :=
    h.setWindow fun x hx => by
      obtain rfl := Option.some.inj hx
      exact Nat.one_pos
  exact hset

theorem Used.alloc (h : Used a) (base : ℕ) (k : κ) (bytes : ℕ) :
    Used (a.alloc base k bytes).1 := by
  have hprepare : Used (a.prepare base k bytes) := by
    unfold Store.prepare
    split
    · exact h.newWindow base k bytes
    · split
      · next win' hfits =>
        refine h.setWindow fun x hx => ?_
        obtain rfl := Option.some.inj hx
        obtain ⟨win, hwin, hwin'⟩ := Option.bind_eq_some_iff.1 hfits
        have hpos := h _ win hwin
        unfold Window.fits at hwin'
        split at hwin'
        · exact Option.some.inj hwin' ▸ hpos
        · split at hwin'
          · cases hwin'
          · split at hwin'
            · cases hwin'
            · exact Option.some.inj hwin' ▸ hpos
      · exact (h.derefDelete _).newWindow base k bytes
  refine hprepare.setWindow fun x hx => ?_
  obtain ⟨win, -, rfl⟩ := Option.map_eq_some_iff.1 hx
  exact Nat.succ_pos _

/-- A window that is in use stays current if the bytes fit at its end. -/
theorem Sound.current_alloc_iff (h : Sound a live) (hc : c ∈ live k) (base bytes : ℕ) :
    (a.alloc base k bytes).1.current k = some c.window ↔
      a.current k = some c.window ∧
        ∃ win, a.windows c.window = some win ∧ bytes ≤ win.avail * 8 := by
  obtain ⟨win, hwin, howner, -⟩ := h.cell hc
  have hnext : a.nextWindow ≠ c.window := by
    intro heq
    have hfresh := h.fresh (Nat.le_refl a.nextWindow)
    rw [heq, hwin] at hfresh
    cases hfresh
  have hnew : ∀ {b : Store κ}, b.nextWindow = a.nextWindow →
      (b.newWindow base k bytes).current k ≠ some c.window := by
    intro b hb heq
    have hcur : (b.newWindow base k bytes).current k = some b.nextWindow :=
      Function.update_self _ _ _
    rw [hcur, hb] at heq
    exact hnext (Option.some.inj heq)
  show (a.prepare base k bytes).current k = some c.window ↔ _
  unfold Store.prepare
  split
  · next hnone =>
    refine ⟨fun heq => absurd heq (hnew rfl), ?_⟩
    rintro ⟨heq, -⟩
    rw [hnone] at heq
    cases heq
  · next w hcur =>
    split
    · next win' hfits =>
      constructor
      · intro heq
        have hw : a.current k = some c.window := heq
        obtain rfl : w = c.window := Option.some.inj (hcur.symm.trans hw)
        refine ⟨hw, win, hwin, ?_⟩
        rw [hwin, Option.bind_some] at hfits
        -- the cell and the owner refer to the window
        have hrefs : 1 < win.refs := by
          have hpos : 0 < (live k).countP (fun d => d.window = c.window) :=
            List.countP_pos_iff.2 ⟨c, hc, by simp⟩
          rw [h.refs hwin, howner, held_of_current live hw]
          omega
        unfold Window.fits at hfits
        by_contra hle
        rw [if_neg hle, if_pos hrefs] at hfits
        cases hfits
      · rintro ⟨heq, -⟩
        exact heq
    · next hfits =>
      refine ⟨fun heq => absurd heq (hnew rfl), ?_⟩
      rintro ⟨heq, win', hwin', hle⟩
      obtain rfl : w = c.window := Option.some.inj (hcur.symm.trans heq)
      rw [hwin', Option.bind_some, Window.fits, if_pos hle] at hfits
      cases hfits

end

end RefWindow
