import Raims.Lib.TwoPointer

/-!
# Url filters (`UrlDBFilter`, `filter_db_size`)

A request for the urls of a mesh has the hashes of the urls that its sender has. The
receiver marks the hashes of the urls that it has too; of the others it has to ask the
sender, with their hashes, for which they are moved to the front of the array. The loop
that moves them ends at an entry that it does not look at, and counts it as marked.

The filter of a reply is inverted: it says what to send, and nothing is asked for.
-/

namespace Raims

namespace UrlFilter

/-- The types of message of which `setup_filter` makes a difference. -/
inductive FilterMsgType
  | meshReq
  | meshRpy
  | ucastReq
  | ucastRpy
  | other
deriving DecidableEq

/-- What `setup_filter` reads of a message: its type, and the 32-bit words of the two fields
when it has them. -/
structure FilterMsg where
  type : FilterMsgType
  meshFilter : Option (List UInt32)
  ucastFilter : Option (List UInt32)

/-- `UrlDBFilter`, with `url_count` the length of both arrays. -/
structure UrlDBFilter where
  exceptUid : ℕ
  matchCount : ℕ
  returnCount : UInt32
  requestCount : ℕ
  hash : List UInt32
  matched : List Bool
  invertMatch : Bool
  isMeshFilter : Bool
deriving DecidableEq

namespace UrlDBFilter

def urlCount (f : UrlDBFilter) : ℕ := f.hash.length

/-- The arrays when there are any. -/
def withHash (f : UrlDBFilter) (hash : List UInt32) (invert : Bool) : UrlDBFilter :=
  { f with hash := hash, matched := hash.map fun _ => false, invertMatch := invert }

def setupFilter (f : UrlDBFilter) (dec : FilterMsg) : UrlDBFilter :=
  if f.isMeshFilter then
    match dec.meshFilter with
    | some hash => f.withHash hash (f.invertMatch || dec.type = .meshRpy)
    | none => f
  else
    match dec.ucastFilter with
    | some hash => f.withHash hash (f.invertMatch || dec.type = .ucastRpy)
    | none => f

/-- The constructor. -/
def make (exceptUid : ℕ) (isMesh : Bool) (dec : Option FilterMsg) : UrlDBFilter :=
  let f : UrlDBFilter := ⟨exceptUid, 0, 0, 0, [], [], false, isMesh⟩
  dec.elim f f.setupFilter

/-- The first entry with a hash. -/
def find (f : UrlDBFilter) (h : UInt32) : ℕ := f.hash.findIdx (· == h)

def filterHash (f : UrlDBFilter) (h : UInt32) : Bool × UrlDBFilter :=
  let i := f.find h
  if i < f.urlCount then
    if f.invertMatch then (false, f)
    else
      (true,
        if f.matched[i]? = some false then
          { f with matched := f.matched.set i true, matchCount := f.matchCount + 1 }
        else f)
  else (f.invertMatch, f)

/-- The loop of `filter_db_size`, by recursion on `j - i`. -/
def partition : ℕ → ℕ → UrlDBFilter → UrlDBFilter × ℕ
  | 0, i, f => (f, i)
  | d + 1, i, f =>
    if f.matched[i]? = some true then
      partition d i
        { f with
          matched := TwoPointer.swap f.matched i (i + (d + 1))
          hash := TwoPointer.swap f.hash i (i + (d + 1)) }
    else partition d (i + 1) f

/-- `filter_db_size` and what it returns. -/
def filterDbSize (f : UrlDBFilter) : Bool × UrlDBFilter :=
  let f' :=
    if f.invertMatch = false ∧ f.matchCount < f.urlCount then
      if f.matchCount = 0 then { f with requestCount := f.urlCount }
      else
        let r := partition (f.urlCount - 1) 0 f
        { r.1 with requestCount := r.2 }
    else f
  (!(f'.returnCount = 0 && f'.requestCount = 0), f')

/-- What is done with a filter before `filter_db_size`: a hash is looked up, or an entry is
counted that has to be returned. -/
inductive Use
  | filterHash (h : UInt32)
  | returned

def use (f : UrlDBFilter) : Use → UrlDBFilter
  | .filterHash h => (f.filterHash h).2
  | .returned => { f with returnCount := f.returnCount + 1 }

/-! ## What is expected -/

/-- The hashes with their marks. -/
def entries (f : UrlDBFilter) : List (UInt32 × Bool) := f.hash.zip f.matched

/-- The hashes are moved with their marks, those not marked are the first `request_count`,
as many as were not marked, and nothing is left to do when false is returned. -/
structure Sized (f : UrlDBFilter) (r : Bool × UrlDBFilter) : Prop where
  perm : r.2.entries.Perm f.entries
  first : ∀ k b, r.2.matched[k]? = some b → (b = false ↔ k < r.2.requestCount)
  count : r.2.requestCount = f.urlCount - f.matchCount
  done : r.1 = false → f.returnCount = 0 ∧ ∀ b ∈ f.matched, b = true

/-- Not inverted, and the entry behind those not marked, as many, is marked; or there is
nothing to move. -/
def Counted (f : UrlDBFilter) : Prop :=
  f.urlCount = 0 ∨
    f.invertMatch = false ∧
      (f.matchCount = 0 ∨ f.matchCount = f.urlCount ∨
        f.matched[f.urlCount - f.matchCount]? = some true)

variable {f f' : UrlDBFilter}

/-! ## Marks -/

/-- Each hash has a mark, and those that are set are counted; an inverted filter has none. -/
structure Marked (f : UrlDBFilter) : Prop where
  length : f.matched.length = f.hash.length
  count : f.matchCount = f.matched.count true
  invert : f.invertMatch = true → f.matchCount = 0
  request : f.requestCount = 0

theorem marked_withHash (hash : List UInt32) (invert : Bool) (hcount : f.matchCount = 0)
    (hrequest : f.requestCount = 0) : Marked (f.withHash hash invert) where
  length := List.length_map _
  count := by
    refine hcount.trans (List.count_eq_zero.2 ?_).symm
    intro hmem
    obtain ⟨h, -, hfalse⟩ := List.mem_map.1 hmem
    exact Bool.noConfusion hfalse
  invert _ := hcount
  request := hrequest

theorem marked_make (exceptUid : ℕ) (isMesh : Bool) (dec : Option FilterMsg) :
    Marked (make exceptUid isMesh dec) := by
  have hempty : Marked ⟨exceptUid, 0, 0, 0, [], [], false, isMesh⟩ :=
    ⟨rfl, rfl, fun _ => rfl, rfl⟩
  cases dec with
  | none => exact hempty
  | some dec =>
    show Marked (setupFilter _ dec)
    unfold setupFilter
    split
    · split
      · exact marked_withHash _ _ rfl rfl
      · exact hempty
    · split
      · exact marked_withHash _ _ rfl rfl
      · exact hempty

/-- A hash that is looked up for the first time. -/
theorem use_of_find {h : UInt32} (hinvert : f.invertMatch = false)
    (hfind : f.matched[f.find h]? = some false) (hlen : f.matched.length = f.hash.length) :
    f.use (.filterHash h) =
      { f with matched := f.matched.set (f.find h) true, matchCount := f.matchCount + 1 } := by
  have hlt : f.find h < f.urlCount := by
    rw [urlCount, ← hlen]
    exact (List.getElem?_eq_some_iff.1 hfind).1
  rw [use, filterHash, if_pos hlt, hinvert, if_neg Bool.false_ne_true, if_pos hfind]

/-- All other lookups leave the filter as it is. -/
theorem use_of_not_find {h : UInt32}
    (h' : f.invertMatch = true ∨ f.matched[f.find h]? ≠ some false) :
    f.use (.filterHash h) = f := by
  rw [use, filterHash]
  split
  · rcases h' with hinvert | hfind
    · rw [if_pos hinvert]
    · rw [if_neg hfind]
      split <;> rfl
  · rfl

theorem Marked.use (hf : Marked f) (u : Use) : Marked (f.use u) := by
  cases u with
  | returned => exact ⟨hf.length, hf.count, hf.invert, hf.request⟩
  | filterHash h =>
    by_cases hcase : f.invertMatch = true ∨ f.matched[f.find h]? ≠ some false
    · rw [use_of_not_find hcase]
      exact hf
    · rw [not_or, Bool.not_eq_true, not_not] at hcase
      obtain ⟨hlt, hfalse⟩ := List.getElem?_eq_some_iff.1 hcase.2
      rw [use_of_find hcase.1 hcase.2 hf.length]
      constructor
      · exact (List.length_set).trans hf.length
      · show f.matchCount + 1 = (f.matched.set (f.find h) true).count true
        rw [List.count_set hlt, hfalse, hf.count]
        simp
      · intro hinvert
        exact Bool.noConfusion (hcase.1.symm.trans hinvert)
      · exact hf.request

theorem Marked.foldl (hf : Marked f) (uses : List Use) : Marked (uses.foldl UrlDBFilter.use f) := by
  induction uses generalizing f with
  | nil => exact hf
  | cons u uses ih => exact ih (hf.use u)

theorem Marked.count_le (hf : Marked f) : f.matchCount ≤ f.urlCount := by
  rw [hf.count, urlCount, ← hf.length]
  exact List.count_le_length

/-! ## The partition -/

theorem length_entries (hlen : f.matched.length = f.hash.length) :
    f.entries.length = f.urlCount := by
  rw [entries, List.length_zip, hlen, Nat.min_self, urlCount]

theorem any_entries (hlen : f.matched.length = f.hash.length) (k : ℕ) :
    f.entries[k]?.any Prod.snd = true ↔ f.matched[k]? = some true := by
  have hzip : (f.entries.map Prod.snd)[k]? = f.matched[k]? := by
    rw [entries, List.map_snd_zip (Nat.le_of_eq hlen)]
  rw [← hzip, List.getElem?_map]
  cases f.entries[k]? with
  | none => simp
  | some e => simp

theorem stays_entries (hf : Marked f) :
    TwoPointer.stays Prod.snd f.entries = f.urlCount - f.matchCount := by
  have hmap : f.entries.map Prod.snd = f.matched := List.map_snd_zip (Nat.le_of_eq hf.length)
  have htrue : f.matchCount = f.entries.countP Prod.snd := by
    rw [hf.count, ← hmap, List.count, List.countP_map]
    exact List.countP_congr fun e _ => by simp
  have hsum := List.length_eq_countP_add_countP (p := Prod.snd) (l := f.entries)
  rw [length_entries hf.length, ← htrue] at hsum
  have hstay : TwoPointer.stays Prod.snd f.entries =
      f.entries.countP fun e => decide ¬ e.2 = true :=
    List.countP_congr fun e _ => by cases e.2 <;> simp
  omega

/-- The loop swaps both arrays as the loop on pairs does, and nothing else is written. -/
theorem partition_eq (d i : ℕ) (hlen : f.matched.length = f.hash.length) :
    ∃ hash matched, matched.length = hash.length ∧
      partition d i f =
        ({ f with hash := hash, matched := matched },
          (TwoPointer.partition Prod.snd d i f.entries).2) ∧
      hash.zip matched = (TwoPointer.partition Prod.snd d i f.entries).1 := by
  induction d generalizing i f with
  | zero => exact ⟨f.hash, f.matched, hlen, rfl, rfl⟩
  | succ d ih =>
    by_cases hmark : f.matched[i]? = some true
    · have hswap := TwoPointer.zip_swap hlen.symm i (i + (d + 1))
      obtain ⟨hash, matched, hlen', heq, hzip⟩ := @ih
        { f with
          matched := TwoPointer.swap f.matched i (i + (d + 1))
          hash := TwoPointer.swap f.hash i (i + (d + 1)) } i
        (by rw [TwoPointer.length_swap, TwoPointer.length_swap, hlen])
      refine ⟨hash, matched, hlen', ?_⟩
      rw [partition, if_pos hmark, TwoPointer.partition, if_pos ((any_entries hlen i).2 hmark),
        entries, ← hswap]
      exact ⟨heq, hzip⟩
    · rw [partition, if_neg hmark, TwoPointer.partition, if_neg (mt (any_entries hlen i).1 hmark)]
      exact ih (i + 1) hlen

/-! ## What is returned -/

theorem filterDbSize_of_skip (h : f.invertMatch = true ∨ f.matchCount = f.urlCount) :
    f.filterDbSize = (!(f.returnCount = 0 && f.requestCount = 0), f) := by
  have hnot : ¬ (f.invertMatch = false ∧ f.matchCount < f.urlCount) := by
    rintro ⟨hinvert, hlt⟩
    rcases h with h | h
    · exact Bool.noConfusion (hinvert.symm.trans h)
    · omega
  rw [filterDbSize, if_neg hnot]

theorem eq_zero_of_filterDbSize (h : f.filterDbSize.1 = false) :
    f.filterDbSize.2.returnCount = 0 ∧ f.filterDbSize.2.requestCount = 0 := by
  have hand : (!(decide (f.filterDbSize.2.returnCount = 0) &&
      decide (f.filterDbSize.2.requestCount = 0))) = false := h
  simpa using hand

theorem filterDbSize_of_zero (hinvert : f.invertMatch = false) (hzero : f.matchCount = 0)
    (hpos : 0 < f.urlCount) :
    f.filterDbSize.2 = { f with requestCount := f.urlCount } := by
  rw [filterDbSize, if_pos ⟨hinvert, hzero ▸ hpos⟩, if_pos hzero]

/-- Some entries are marked and some are not. -/
theorem filterDbSize_of_lt (hf : Marked f) (hinvert : f.invertMatch = false)
    (hpos : 0 < f.matchCount) (hlt : f.matchCount < f.urlCount) :
    Sized f f.filterDbSize ↔ f.matched[f.urlCount - f.matchCount]? = some true := by
  have hne : f.entries ≠ [] := by
    rw [← List.length_pos_iff, length_entries hf.length]
    omega
  obtain ⟨hperm, hfirst, hmeet⟩ := TwoPointer.partition_spec Prod.snd hne
  obtain ⟨hash, matched, hlen, heq, hzip⟩ :=
    partition_eq (f.urlCount - 1) 0 hf.length
  rw [stays_entries hf, length_entries hf.length] at hfirst hmeet
  rw [length_entries hf.length] at hperm
  rw [any_entries hf.length] at hmeet
  rw [← hzip] at hperm hfirst
  have hsize : f.filterDbSize.2 =
      { f with
        hash := hash
        matched := matched
        requestCount := (TwoPointer.partition Prod.snd (f.urlCount - 1) 0 f.entries).2 } := by
    rw [filterDbSize, if_pos ⟨hinvert, hlt⟩, if_neg (Nat.ne_of_gt hpos), heq]
  rw [← hmeet]
  constructor
  · intro h
    have hcount := h.count
    rw [hsize] at hcount
    exact hcount
  · intro hcount
    rw [hcount] at hsize
    constructor
    · rw [hsize]
      exact hperm
    · intro k b hb
      rw [hsize] at hb ⊢
      have hk : k < (hash.zip matched).length := by
        rw [List.length_zip, ← hlen, Nat.min_self]
        exact (List.getElem?_eq_some_iff.1 hb).1
      have hget := hfirst k _ (List.getElem?_eq_getElem hk)
      rw [List.getElem_zip] at hget
      obtain ⟨hkm, hbk⟩ := List.getElem?_eq_some_iff.1 hb
      rw [← hbk]
      exact hget
    · rw [hsize]
    · intro hfalse
      have hzero : f.filterDbSize.2.requestCount = 0 := (eq_zero_of_filterDbSize hfalse).2
      rw [hsize] at hzero
      change f.urlCount - f.matchCount = 0 at hzero
      omega

theorem Marked.eq_false_of_zero (hf : Marked f) (hzero : f.matchCount = 0) :
    ∀ b ∈ f.matched, b = false := by
  intro b hb
  have hnot : true ∉ f.matched := List.count_eq_zero.1 (hf.count ▸ hzero)
  cases b with
  | false => rfl
  | true => exact absurd hb hnot

theorem Marked.eq_true_of_all (hf : Marked f) (hall : f.matchCount = f.urlCount) :
    ∀ b ∈ f.matched, b = true := by
  have hlen : f.matched.count true = f.matched.length := by
    rw [← hf.count, hall, hf.length, urlCount]
  intro b hb
  exact (List.count_eq_length.1 hlen b hb).symm

/-- No entry is marked: all are asked for, where they are. -/
theorem Marked.sized_of_zero (hf : Marked f) (hinvert : f.invertMatch = false)
    (hzero : f.matchCount = 0) (hpos : 0 < f.urlCount) : Sized f f.filterDbSize := by
  have hsize := filterDbSize_of_zero hinvert hzero hpos
  constructor
  · rw [hsize]
    exact List.Perm.refl _
  · intro k b hb
    rw [hsize] at hb ⊢
    have hk := (List.getElem?_eq_some_iff.1 hb).1
    change k < f.matched.length at hk
    rw [hf.length] at hk
    exact iff_of_true (hf.eq_false_of_zero hzero b (List.mem_of_getElem? hb)) hk
  · rw [hsize, hzero, Nat.sub_zero]
  · intro hfalse
    have hrequest := (eq_zero_of_filterDbSize hfalse).2
    rw [hsize] at hrequest
    change f.urlCount = 0 at hrequest
    omega

/-- All entries are marked, or there are none. -/
theorem Marked.sized_of_all (hf : Marked f) (hall : f.matchCount = f.urlCount) :
    Sized f f.filterDbSize := by
  have hskip := filterDbSize_of_skip (f := f) (.inr hall)
  have htrue := hf.eq_true_of_all hall
  constructor
  · rw [hskip]
  · intro k b hb
    rw [hskip] at hb ⊢
    refine iff_of_false ?_ ?_
    · rw [htrue b (List.mem_of_getElem? hb)]
      exact Bool.noConfusion
    · show ¬ k < f.requestCount
      rw [hf.request]
      exact Nat.not_lt_zero k
  · rw [hskip, hall, Nat.sub_self]
    exact hf.request
  · intro hfalse
    have hret := (eq_zero_of_filterDbSize hfalse).1
    rw [hskip] at hret
    exact ⟨hret, htrue⟩

/-- An inverted filter asks for nothing, whatever it has. -/
theorem Marked.not_sized_of_invert (hf : Marked f) (hinvert : f.invertMatch = true)
    (hpos : 0 < f.urlCount) : ¬ Sized f f.filterDbSize := by
  intro h
  have hcount := h.count
  rw [filterDbSize_of_skip (.inl hinvert)] at hcount
  change f.requestCount = _ at hcount
  rw [hf.request, hf.invert hinvert] at hcount
  omega

theorem Marked.sized_iff (hf : Marked f) : Sized f f.filterDbSize ↔ Counted f := by
  rcases Nat.eq_zero_or_pos f.urlCount with hzero | hpos
  · have hle := hf.count_le
    exact iff_of_true (hf.sized_of_all (by omega)) (.inl hzero)
  · have hne : ¬ f.urlCount = 0 := Nat.ne_of_gt hpos
    cases hinvert : f.invertMatch with
    | true =>
      refine iff_of_false (hf.not_sized_of_invert hinvert hpos) ?_
      rintro (h | ⟨h, -⟩)
      · exact hne h
      · exact Bool.noConfusion (hinvert.symm.trans h)
    | false =>
      rw [Counted, or_iff_right hne, and_iff_right hinvert]
      rcases Nat.eq_zero_or_pos f.matchCount with hnone | hsome
      · exact iff_of_true (hf.sized_of_zero hinvert hnone hpos) (.inl hnone)
      · rcases Nat.eq_or_lt_of_le hf.count_le with hall | hlt
        · exact iff_of_true (hf.sized_of_all hall) (.inr (.inl hall))
        · rw [filterDbSize_of_lt hf hinvert hsome hlt, or_iff_right (Nat.ne_of_gt hsome),
            or_iff_right (Nat.ne_of_lt hlt)]

theorem use_keeps (f : UrlDBFilter) (u : Use) :
    (f.use u).hash = f.hash ∧ (f.use u).invertMatch = f.invertMatch := by
  cases u with
  | returned => exact ⟨rfl, rfl⟩
  | filterHash h =>
    rw [use, filterHash]
    split
    · split
      · exact ⟨rfl, rfl⟩
      · split <;> exact ⟨rfl, rfl⟩
    · exact ⟨rfl, rfl⟩

theorem matched_use_iff (hf : Marked f) (u : Use) (k : ℕ) :
    (f.use u).matched[k]? = some true ↔
      f.matched[k]? = some true ∨
        f.invertMatch = false ∧ k < f.urlCount ∧ ∃ h, f.find h = k ∧ u = .filterHash h := by
  cases u with
  | returned =>
    refine (or_iff_left ?_).symm
    rintro ⟨-, -, h, -, hu⟩
    exact Use.noConfusion hu
  | filterHash h =>
    by_cases hcase : f.invertMatch = true ∨ f.matched[f.find h]? ≠ some false
    · rw [use_of_not_find hcase]
      refine (or_iff_left_of_imp ?_).symm
      rintro ⟨hinvert, hk, h', hfind, hu⟩
      obtain rfl : h = h' := Use.filterHash.inj hu
      have hlt : f.find h < f.matched.length := by
        rw [hfind, hf.length]
        exact hk
      rcases hcase with hcase | hcase
      · exact Bool.noConfusion (hinvert.symm.trans hcase)
      · rw [← hfind, List.getElem?_eq_getElem hlt]
        rw [List.getElem?_eq_getElem hlt] at hcase
        cases hb : f.matched[f.find h] with
        | true => rfl
        | false => exact absurd (by rw [hb]) hcase
    · rw [not_or, Bool.not_eq_true, not_not] at hcase
      obtain ⟨hlt, -⟩ := List.getElem?_eq_some_iff.1 hcase.2
      rw [use_of_find hcase.1 hcase.2 hf.length]
      show (f.matched.set (f.find h) true)[k]? = some true ↔ _
      rw [List.getElem?_set]
      by_cases hk : f.find h = k
      · rw [if_pos hk, if_pos (hk ▸ hlt)]
        refine iff_of_true rfl (.inr ⟨hcase.1, ?_, h, hk, rfl⟩)
        rw [← hk, urlCount, ← hf.length]
        exact hlt
      · rw [if_neg hk]
        refine (or_iff_left ?_).symm
        rintro ⟨-, -, h', hfind, hu⟩
        obtain rfl : h = h' := Use.filterHash.inj hu
        exact hk hfind

/-- A mark is set when the hash was looked up, at its first place, in a filter that is not
inverted. -/
theorem matched_foldl_iff (hf : Marked f) (uses : List Use) (k : ℕ) :
    (uses.foldl use f).matched[k]? = some true ↔
      f.matched[k]? = some true ∨
        f.invertMatch = false ∧ k < f.urlCount ∧ ∃ h, f.find h = k ∧ Use.filterHash h ∈ uses := by
  induction uses generalizing f with
  | nil => simp
  | cons u uses ih =>
    obtain ⟨hhash, hinvert⟩ := use_keeps f u
    have hfind : ∀ h, (f.use u).find h = f.find h := fun h => by rw [find, hhash, find]
    have hcount : (f.use u).urlCount = f.urlCount := by rw [urlCount, hhash, urlCount]
    rw [List.foldl_cons, ih (hf.use u), matched_use_iff hf, hinvert, hcount]
    simp only [hfind, List.mem_cons]
    constructor
    · rintro ((hold | ⟨hi, hk, h, hfk, rfl⟩) | ⟨hi, hk, h, hfk, hmem⟩)
      · exact .inl hold
      · exact .inr ⟨hi, hk, h, hfk, .inl rfl⟩
      · exact .inr ⟨hi, hk, h, hfk, .inr hmem⟩
    · rintro (hold | ⟨hi, hk, h, hfk, hu | hmem⟩)
      · exact .inl (.inl hold)
      · exact .inl (.inr ⟨hi, hk, h, hfk, hu.symm⟩)
      · exact .inr ⟨hi, hk, h, hfk, hmem⟩

/-- Whatever filter was made and used, `filter_db_size` is right about it exactly when the
entry at which its loop ends is marked, or the loop has nothing to do. -/
theorem filterDbSize_sized_iff (exceptUid : ℕ) (isMesh : Bool) (dec : Option FilterMsg)
    (uses : List Use) :
    Sized (uses.foldl use (make exceptUid isMesh dec))
        (uses.foldl use (make exceptUid isMesh dec)).filterDbSize ↔
      Counted (uses.foldl use (make exceptUid isMesh dec)) :=
  ((marked_make exceptUid isMesh dec).foldl uses).sized_iff

/-- Of three hashes the first is marked: one of the others is asked for, and not the other. -/
theorem third_hash_not_requested :
    ¬ Sized ([Use.filterHash 1].foldl use (make 0 true (some ⟨.meshReq, some [1, 2, 3], none⟩)))
      ([Use.filterHash 1].foldl use
        (make 0 true (some ⟨.meshReq, some [1, 2, 3], none⟩))).filterDbSize := by
  intro h
  exact absurd h.count (by decide)

end UrlDBFilter

end UrlFilter

end Raims
