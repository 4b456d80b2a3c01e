import Mathlib.Data.List.Basic

/-!
# Frames in a stream

A stream is cut into frames by what stands at its front, and a reader has the part of it that
has come so far. When more of the stream does not change what a reader found (`Framer`), the
frames are those of the whole stream, however it came (`parse_append`).
-/

namespace FrameStream

variable {β : Type*}

/-- What is at the front: not enough, something else, or a frame and its length. -/
inductive Front where
  | need
  | bad
  | frame (n : ℕ)
deriving DecidableEq

structure Framer (β : Type*) where
  front : List β → Front
  nil : front [] = .need
  frame_pos : ∀ b n, front b = .frame n → 0 < n
  frame_le : ∀ b n, front b = .frame n → n ≤ b.length
  frame_append : ∀ b n c, front b = .frame n → front (b ++ c) = .frame n
  bad_append : ∀ b c, front b = .bad → front (b ++ c) = .bad

/-- The frames, what is left after them, and whether that is something else. -/
@[ext] structure Parsed (β : Type*) where
  frames : List (List β)
  rest : List β
  bad : Bool

namespace Parsed

def prepend (fs : List (List β)) (r : Parsed β) : Parsed β := { r with frames := fs ++ r.frames }

@[simp] theorem prepend_nil (r : Parsed β) : r.prepend [] = r := rfl

theorem prepend_append (fs gs : List (List β)) (r : Parsed β) :
    r.prepend (fs ++ gs) = (r.prepend gs).prepend fs := by
  rw [prepend, prepend, prepend, List.append_assoc]

end Parsed

namespace Framer

variable (F : Framer β)

def parseFrom : ℕ → List β → Parsed β
  | 0, b => ⟨[], b, false⟩
  | fuel + 1, b =>
    match F.front b with
    | .need => ⟨[], b, false⟩
    | .bad => ⟨[], b, true⟩
    | .frame n => (parseFrom fuel (b.drop n)).prepend [b.take n]

def parse (b : List β) : Parsed β := F.parseFrom b.length b

variable {F} {b c : List β} {n : ℕ}

/-- Each frame takes something, so the length is fuel enough. -/
theorem parseFrom_eq (fuel : ℕ) (h : b.length ≤ fuel) : F.parseFrom fuel b = F.parse b := by
  induction fuel using Nat.strongRecOn generalizing b with
  | _ fuel ih =>
    cases fuel with
    | zero =>
      obtain rfl := List.eq_nil_of_length_eq_zero (Nat.le_zero.mp h)
      rfl
    | succ fuel =>
      cases hb : b.length with
      | zero =>
        obtain rfl := List.eq_nil_of_length_eq_zero hb
        rw [parseFrom, F.nil]
        rfl
      | succ k =>
        rw [parse, hb, parseFrom, parseFrom]
        cases hf : F.front b with
        | need => rfl
        | bad => rfl
        | frame n =>
          have hpos := F.frame_pos b n hf
          have hdrop : (b.drop n).length ≤ k := by
            rw [List.length_drop]
            omega
          show (F.parseFrom fuel _).prepend _ = (F.parseFrom k _).prepend _
          rw [ih fuel (Nat.lt_succ_self _) (by omega)]
          rw [ih k (by omega) hdrop]

theorem parse_need (h : F.front b = .need) : F.parse b = ⟨[], b, false⟩ := by
  rw [← parseFrom_eq (b.length + 1) (Nat.le_succ _), parseFrom, h]

theorem parse_bad (h : F.front b = .bad) : F.parse b = ⟨[], b, true⟩ := by
  rw [← parseFrom_eq (b.length + 1) (Nat.le_succ _), parseFrom, h]

theorem parse_frame (h : F.front b = .frame n) :
    F.parse b = (F.parse (b.drop n)).prepend [b.take n] := by
  rw [← parseFrom_eq (b.length + 1) (Nat.le_succ _), parseFrom, h]
  show (F.parseFrom _ _).prepend _ = _
  rw [parseFrom_eq b.length]
  rw [List.length_drop]
  exact Nat.sub_le _ _

@[simp] theorem parse_nil : F.parse [] = ⟨[], [], false⟩ := rfl

/-- The rest of the stream only adds to the frames. -/
theorem parse_append (F : Framer β) (b c : List β) :
    F.parse (b ++ c) = if (F.parse b).bad then { F.parse b with rest := (F.parse b).rest ++ c }
      else (F.parse ((F.parse b).rest ++ c)).prepend (F.parse b).frames := by
  induction hlen : b.length using Nat.strongRecOn generalizing b with
  | _ k ih =>
    cases hf : F.front b with
    | need =>
      rw [parse_need hf]
      rfl
    | bad =>
      rw [parse_bad hf, parse_bad (F.bad_append b c hf)]
      rfl
    | frame n =>
      have hpos := F.frame_pos b n hf
      have hle := F.frame_le b n hf
      have hdrop : (b.drop n).length < k := by
        rw [List.length_drop]
        omega
      rw [parse_frame hf, parse_frame (F.frame_append b n c hf), List.drop_append_of_le_length hle,
        List.take_append_of_le_length hle, ih _ hdrop _ rfl]
      cases hbad : (F.parse (b.drop n)).bad
      · have hall : ((F.parse (b.drop n)).prepend [b.take n]).bad = false := hbad
        rw [if_neg Bool.false_ne_true, hall, if_neg Bool.false_ne_true, ← Parsed.prepend_append]
        rfl
      · have hall : ((F.parse (b.drop n)).prepend [b.take n]).bad = true := hbad
        rw [if_pos rfl, hall, if_pos rfl]
        rfl

/-- A reader that has `r` left, after the frames `fs`, is where the stream is. -/
theorem parse_append_left {fs : List (List β)} {r : List β}
    (h : F.parse b = (F.parse r).prepend fs) (c : List β) :
    F.parse (b ++ c) = (F.parse (r ++ c)).prepend fs := by
  rw [parse_append F b, parse_append F r, h]
  cases hbad : (F.parse r).bad
  · have hall : ((F.parse r).prepend fs).bad = false := hbad
    rw [hall, if_neg Bool.false_ne_true, if_neg Bool.false_ne_true, ← Parsed.prepend_append]
    rfl
  · have hall : ((F.parse r).prepend fs).bad = true := hbad
    rw [hall, if_pos rfl, if_pos rfl]
    rfl

theorem frames_append (b c : List β) : (F.parse b).frames <+: (F.parse (b ++ c)).frames := by
  rw [parse_append F b c]
  split_ifs
  · exact List.prefix_refl _
  · exact List.prefix_append _ _

/-- Frames one behind the other are cut where they were put together. -/
theorem parse_flatten {fs : List (List β)} (h : ∀ f ∈ fs, F.front f = .frame f.length) :
    F.parse fs.flatten = ⟨fs, [], false⟩ := by
  induction fs with
  | nil => rfl
  | cons f fs ih =>
    have hf := F.frame_append f f.length fs.flatten (h f (List.mem_cons_self ..))
    have hrest := ih fun g hg => h g (List.mem_cons_of_mem _ hg)
    rw [List.flatten_cons, parse_frame hf, List.drop_left, List.take_left, hrest]
    rfl

/-- What has come of a stream of frames has the first of them, and nothing else. -/
theorem parse_initial {fs : List (List β)} (h : ∀ f ∈ fs, F.front f = .frame f.length)
    (hb : b <+: fs.flatten) : (F.parse b).bad = false ∧ (F.parse b).frames <+: fs := by
  obtain ⟨c, hc⟩ := hb
  have hall := parse_append F b c
  rw [hc, parse_flatten h] at hall
  cases hbad : (F.parse b).bad
  · rw [hbad, if_neg Bool.false_ne_true] at hall
    exact ⟨rfl, _, (congrArg Parsed.frames hall).symm⟩
  · rw [hbad, if_pos rfl] at hall
    rw [← congrArg Parsed.bad hall] at hbad
    exact absurd hbad Bool.false_ne_true

end Framer

end FrameStream
