import Mathlib.Data.List.Nodup
import Mathlib.Data.List.Flatten

/-!
# Records without marks between them

A list of records, each of them a list of fields by key, is sent as one list of
fields. The reader starts a record where a key comes again. It finds the records
that were sent when no record has a key twice and all of them begin with the same
key.
-/

namespace KeyedRecords

variable {κ ν : Type} [DecidableEq κ]

/-- The rest of the fields, with the record that is being read. -/
def splitFrom (rec : List (κ × ν)) : List (κ × ν) → List (List (κ × ν))
  | [] => [rec]
  | f :: fs =>
    if f.1 ∈ rec.map Prod.fst then rec :: splitFrom [f] fs else splitFrom (rec ++ [f]) fs

/-- The records of a list of fields. -/
def split : List (κ × ν) → List (List (κ × ν))
  | [] => []
  | f :: fs => splitFrom [f] fs

/-- A record that begins with `k` and has no key twice. -/
structure Headed (k : κ) (rec : List (κ × ν)) : Prop where
  head : ∃ v fs, rec = (k, v) :: fs
  nodup : (rec.map Prod.fst).Nodup

/-- New keys are read into the record. -/
theorem splitFrom_append (fs rest rec : List (κ × ν)) (h : ((rec ++ fs).map Prod.fst).Nodup) :
    splitFrom rec (fs ++ rest) = splitFrom (rec ++ fs) rest := by
  induction fs generalizing rec with
  | nil => simp
  | cons f fs ih =>
    have hnot : f.1 ∉ rec.map Prod.fst := by
      intro hmem
      rw [List.map_append, List.map_cons] at h
      exact List.disjoint_of_nodup_append h hmem List.mem_cons_self
    have hassoc : rec ++ f :: fs = rec ++ [f] ++ fs := by simp
    rw [List.cons_append, splitFrom, if_neg hnot, ih, hassoc]
    rwa [← hassoc]

theorem splitFrom_flatten {k : κ} {recs : List (List (κ × ν))} (h : ∀ r ∈ recs, Headed k r)
    {rec : List (κ × ν)} (hrec : Headed k rec) : splitFrom rec recs.flatten = rec :: recs := by
  induction recs generalizing rec with
  | nil => rfl
  | cons r recs ih =>
    have hr := h r List.mem_cons_self
    obtain ⟨v, fs, rfl⟩ := hr.head
    have hk : k ∈ rec.map Prod.fst := by
      obtain ⟨v', fs', rfl⟩ := hrec.head
      simp
    rw [List.flatten_cons, List.cons_append, splitFrom, if_pos hk, splitFrom_append _ _ _ hr.nodup]
    exact congrArg _ (ih (fun r hmem => h r (List.mem_cons_of_mem _ hmem)) hr)

/-- What was sent as records is read as these records. -/
theorem split_flatten {k : κ} {recs : List (List (κ × ν))} (h : ∀ r ∈ recs, Headed k r) :
    split recs.flatten = recs := by
  cases recs with
  | nil => rfl
  | cons r recs =>
    have hr := h r List.mem_cons_self
    obtain ⟨v, fs, rfl⟩ := hr.head
    rw [List.flatten_cons, List.cons_append, split, splitFrom_append _ _ _ hr.nodup]
    exact splitFrom_flatten (fun r hmem => h r (List.mem_cons_of_mem _ hmem)) hr

end KeyedRecords
