import Raims.Graph.AdjGraph

/-!
# Link costs as text (`AdjCost::str_size`, `AdjCost::parse`)

A cost is sent as text, `1000` for one that is the same on every path and
`1000_100_1/4` for one with a maximum, a minimum, and the path of the minimum among
the number of paths. The same parser takes a list of costs by path and the short
forms `1000-1/4`, whose minimum is derived from the maximum.
-/

namespace Raims

abbrev Text := List UInt8

/-- The characters of a string of letters. -/
def text (s : String) : Text := s.toList.map fun c => UInt8.ofNat c.toNat

/-- The string of a text. -/
def nameOf (t : Text) : String := String.ofList (t.map fun c => Char.ofNat c.toNat)

def COST_DEFAULT : UInt32 := 1000

namespace AdjCost

/-- What `parse` returns: `BAD_FMT` and so on. -/
inductive ParseStatus where
  | ok | badFmt | emptyCost | emptyPath | badCost | costX
deriving DecidableEq, Repr

/-! ## Writing -/

/-- `%u`. -/
def decimal (n : ℕ) : List UInt8 := (Nat.toDigits 10 n).map fun c => UInt8.ofNat c.toNat

/-- `op( )`: a blank for one path, else an underscore. -/
def isFlat (c : AdjCost) : Bool := c.path.num = 0 ∧ c.path.count = 1

/-- `str_size`: the text that it leaves in the buffer. The longest one has 33
characters, so the 64 of the callers are enough. -/
def str (c : AdjCost) : List UInt8 :=
  if c.isFlat then decimal c.maxCost.toNat
  else
    decimal c.maxCost.toNat ++ 0x5f :: (decimal c.minCost.toNat ++ 0x5f ::
      (decimal c.path.num.toNat ++ 0x2f :: decimal c.path.count.toNat))

theorem length_decimal_le {n k : ℕ} (hk : 0 < k) (h : n < 10 ^ k) : (decimal n).length ≤ k := by
  rw [decimal, List.length_map]
  exact (Nat.length_toDigits_le_iff (by decide) hk).mpr h

/-- Two numbers of 32 bits, two of 16, and what stands between them. -/
theorem length_str_le (c : AdjCost) : c.str.length ≤ 33 := by
  have hmax : (decimal c.maxCost.toNat).length ≤ 10 :=
    length_decimal_le (by decide) (c.maxCost.toNat_lt.trans (by decide))
  have hmin : (decimal c.minCost.toNat).length ≤ 10 :=
    length_decimal_le (by decide) (c.minCost.toNat_lt.trans (by decide))
  have hnum : (decimal c.path.num.toNat).length ≤ 5 :=
    length_decimal_le (by decide) (c.path.num.toNat_lt.trans (by decide))
  have hcount : (decimal c.path.count.toNat).length ≤ 5 :=
    length_decimal_le (by decide) (c.path.count.toNat_lt.trans (by decide))
  unfold str
  split
  · omega
  · simp only [List.length_append, List.length_cons]
    omega

/-! ## Reading -/

/-- `set( cost, count )`: the first cost that is below the next one is the minimum.
When they are all the same there is one path. -/
def setArray (costs : List UInt32) : AdjCost :=
  let first := costs.headD 0
  if costs.all (· = first) then const first
  else
    -- four costs that repeat the first two are two
    let count :=
      if costs.length = 4 ∧ costs[0]? = costs[2]? ∧ costs[1]? = costs[3]? then 2 else costs.length
    let i := (List.range count).findIdx fun i =>
      costs.getD i 0 < costs.getD ((i + 1) % count) 0
    ⟨costs.getD ((i + 1) % count) 0, costs.getD i 0, ⟨UInt16.ofNat i, UInt16.ofNat count⟩⟩

/-- The locals of `parse`. -/
structure ParseState where
  costArray : List UInt32
  op : Option UInt8
  val : UInt32
  cost : UInt32
  cost1 : UInt32
  num : UInt32
  x : ParseStatus

def ParseState.start : ParseState := ⟨[], none, 0, 0, 0, 0, .ok⟩

/-- The loop over the text; none for `BAD_FMT`. A character below a blank, which a
negative one is, ends it. -/
def scan : ParseState → List UInt8 → Option ParseState
  | s, [] => some s
  | s, c :: rest =>
    if 0x30 ≤ c ∧ c ≤ 0x39 then
      scan { s with val := s.val * 10 + (c - 0x30).toUInt32 } rest
    else if c = 0x2d ∨ c = 0x5f ∨ c = 0x3d ∨ c = 0x5e then
      scan { s with cost1 := s.cost, cost := s.val, val := 0, op := some c } rest
    else if c = 0x2f then scan { s with num := s.val, val := 0 } rest
    else if c = 0x20 then
      scan { s with
        costArray := if 0 < s.val then s.costArray ++ [s.val] else s.costArray
        val := 0 } rest
    else if c = 0x58 ∨ c = 0x4e then scan { s with x := .costX } rest
    else if c < 0x20 ∨ 0x80 ≤ c then some s
    else none

/-- The minimum of a short form. -/
def derivedMin (op : UInt8) (cost : UInt32) : UInt32 :=
  if op = 0x2d then cost - cost / 10
  else if op = 0x5f then cost / 10
  else if op = 0x3d then cost / 100
  else if op = 0x5e then cost / 1000
  else 0

/-- The default is set first and stays, in part or in whole, on an error. -/
def finish (s : ParseState) : AdjCost × ParseStatus :=
  let dflt := const COST_DEFAULT
  match s.op with
  | none =>
    if s.val ≠ 0 then
      if s.costArray ≠ [] then (setArray (s.costArray ++ [s.val]), .ok)
      else (⟨s.val, s.val, dflt.path⟩, .ok)
    else (dflt, .emptyCost)
  | some op =>
    if s.cost = 0 then (dflt, .emptyCost)
    else if s.val = 0 ∨ s.val ≤ s.num then (dflt, .emptyPath)
    else
      let ranged := s.cost1 ≠ 0 ∧ s.cost < s.cost1
      let maxCost := if ranged then s.cost1 else s.cost
      let minCost := if ranged then s.cost else derivedMin op s.cost
      if minCost = 0 ∨ maxCost = 0 then (⟨maxCost, minCost, dflt.path⟩, .badCost)
      else (⟨maxCost, minCost, ⟨s.num.toUInt16, s.val.toUInt16⟩⟩, s.x)

/-- `parse` of one text. -/
def parse (text : List UInt8) : AdjCost × ParseStatus :=
  match scan ParseState.start text with
  | none => (const COST_DEFAULT, .badFmt)
  | some s => finish s

/-- `atoi`. A number beyond a long is the nearest one. -/
def atoi (text : List UInt8) : UInt32 :=
  let value (digits : List UInt8) : ℕ :=
    (digits.takeWhile fun c => 0x30 ≤ c ∧ c ≤ 0x39).foldl (fun v c => v * 10 + (c - 0x30).toNat) 0
  match text.dropWhile fun c => c = 0x20 ∨ 0x09 ≤ c ∧ c ≤ 0x0d with
  | 0x2d :: digits => UInt32.ofNat (2 ^ 64 - min (value digits) (2 ^ 63))
  | 0x2b :: digits => UInt32.ofNat (min (value digits) (2 ^ 63 - 1))
  | digits => UInt32.ofNat (min (value digits) (2 ^ 63 - 1))

/-- `parse` of a list of texts: one of them as above, and several as costs by path, less
those that are zero. -/
def parseArgs : List (List UInt8) → AdjCost × ParseStatus
  | [text] => parse text
  | args =>
    let costArray := (args.map atoi).filter (· ≠ 0)
    (if costArray ≠ [] then setArray costArray else const COST_DEFAULT, .ok)

/-- The cost that a receiver of the text has: the status is not looked at. -/
def received (c : AdjCost) : AdjCost := (parse c.str).1

example : received ⟨1000, 100, ⟨1, 4⟩⟩ = ⟨1000, 100, ⟨1, 4⟩⟩ := by decide

end AdjCost

end Raims
