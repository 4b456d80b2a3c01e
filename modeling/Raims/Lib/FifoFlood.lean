import Mathlib.Data.Finset.Image
import Mathlib.Logic.Relation

/-!
# FifoFlood: a numbered broadcast over links that keep the order

The root numbers its messages. A node takes a message whose number is above all
that it took before, and passes it on; what is behind is dropped, without a look
at what is missing between. The links are queues. If what is flooded goes over
every link of a set, then a node has nothing missing when it takes a message:
whoever sent it had taken the ones before it, and sent them on the same link.
-/

namespace FifoFlood

variable {ν ε : Type*}

/-- A message of the root: flooded, or sent over some of the links only. -/
structure Msg where
  seqno : ℕ
  flood : Bool
deriving DecidableEq

/-- What the root sent, and what went over each link so far; what did not come out
of it yet; the highest number that a node took, and the flooded messages it took. -/
structure Net (ν ε : Type*) where
  sent : List Msg
  wire : ε → List Msg
  queue : ε → List Msg
  last : ν → ℕ
  log : ν → List ℕ

/-- The numbers of the messages that are flooded. -/
def floods (l : List Msg) : List ℕ := (l.filter Msg.flood).map Msg.seqno

namespace Net

def init : Net ν ε := ⟨[], fun _ => [], fun _ => [], fun _ => 0, fun _ => []⟩

/-- The root has a message more. -/
def issue (net : Net ν ε) (m : Msg) : Net ν ε := { net with sent := net.sent ++ [m] }

/-- `v` takes `m`. -/
def take [DecidableEq ν] (net : Net ν ε) (v : ν) (m : Msg) : Net ν ε :=
  { net with
    last := Function.update net.last v m.seqno
    log := Function.update net.log v (net.log v ++ floods [m]) }

/-- The first message of a link comes out of it. -/
def pop [DecidableEq ε] (net : Net ν ε) (e : ε) : Net ν ε :=
  { net with queue := Function.update net.queue e (net.queue e).tail }

/-- Send `m` over the links in `outs`. -/
def push [DecidableEq ε] (net : Net ν ε) (outs : Finset ε) (m : Msg) : Net ν ε :=
  { net with
    wire := fun e => if e ∈ outs then net.wire e ++ [m] else net.wire e
    queue := fun e => if e ∈ outs then net.queue e ++ [m] else net.queue e }

end Net

/-- What `v` sends a message over: links of its own, and all of these if it is flooded,
but the ones to the root and to where it came from. -/
structure Sends (src dst : ε → ν) (links : Set ε) (root : ν) (m : Msg) (v sender : ν)
    (outs : Finset ε) : Prop where
  own : ∀ e ∈ outs, e ∈ links ∧ src e = v
  all : m.flood → ∀ e ∈ links, src e = v → dst e ≠ root → dst e ≠ sender → e ∈ outs

/-- The root sends, or a link delivers what a node takes or drops. -/
inductive Step [DecidableEq ν] [DecidableEq ε] (src dst : ε → ν) (links : Set ε) (root : ν) : Net ν ε → Net ν ε → Prop
  | send (net : Net ν ε) (m : Msg) (outs : Finset ε) (hnew : net.last root < m.seqno)
      (hto : Sends src dst links root m root root outs) :
      Step src dst links root net (((net.issue m).take root m).push outs m)
  | accept (net : Net ν ε) (e : ε) (m : Msg) (outs : Finset ε)
      (hhead : (net.queue e).head? = some m) (hnew : net.last (dst e) < m.seqno)
      (hto : Sends src dst links root m (dst e) (src e) outs) :
      Step src dst links root net (((net.take (dst e) m).pop e).push outs m)
  | drop (net : Net ν ε) (e : ε) (m : Msg) (hhead : (net.queue e).head? = some m)
      (hold : m.seqno ≤ net.last (dst e)) :
      Step src dst links root net (net.pop e)

/-- The nets reached from the start. -/
def Reachable [DecidableEq ν] [DecidableEq ε] (src dst : ε → ν) (links : Set ε) (root : ν)
    (net : Net ν ε) : Prop :=
  Relation.ReflTransGen (Step src dst links root) Net.init net

/-! ## §1 The invariant -/

theorem floods_append (l l' : List Msg) : floods (l ++ l') = floods l ++ floods l' := by
  rw [floods, List.filter_append, List.map_append]
  rfl

theorem mem_floods {l : List Msg} {a : ℕ} : a ∈ floods l ↔ ∃ m ∈ l, m.flood ∧ m.seqno = a := by
  simp only [floods, List.mem_map, List.mem_filter, and_assoc]

theorem floods_cons (m : Msg) (l : List Msg) : floods (m :: l) = floods [m] ++ floods l :=
  floods_append [m] l

/-- `told v` is what `v` has passed on: `last v`, but between taking and sending. `top`
is the number of the last message that the root issued. -/
structure Inv (src dst : ε → ν) (links : Set ε) (told : ν → ℕ) (top : ℕ) (net : Net ν ε) :
    Prop where
  sorted : net.sent.Pairwise fun m m' => m.seqno < m'.seqno
  sent_le : ∀ m ∈ net.sent, m.seqno ≤ top
  last_le : ∀ v, net.last v ≤ top
  told_le : ∀ v, told v ≤ net.last v
  log : ∀ v, net.log v = (floods net.sent).filter (· ≤ net.last v)
  sent : ∀ e, ∀ m ∈ net.wire e, e ∈ links ∧ m ∈ net.sent ∧ m.seqno ≤ told (src e)
  once : ∀ e, (net.wire e).Pairwise fun m m' => m.seqno < m'.seqno
  suffix : ∀ e, net.queue e <:+ net.wire e
  /-- Nothing overtakes a flooded message on a link. -/
  order : ∀ e ∈ links, ∀ q m q', net.queue e = q ++ m :: q' →
    ∀ a ∈ floods net.sent, a < m.seqno → a ≤ net.last (dst e) ∨ a ∈ floods q
  /-- What a node has passed on is at the other end of its links, or on the way. -/
  cover : ∀ e ∈ links, ∀ a ∈ floods net.sent, a ≤ told (src e) →
    a ≤ net.last (dst e) ∨ a ∈ floods (net.queue e)

variable {src dst : ε → ν} {links : Set ε} {root : ν} {told : ν → ℕ} {top : ℕ} {net : Net ν ε}

theorem Inv.init : Inv src dst links (Net.init (ν := ν) (ε := ε)).last 0 Net.init where
  sorted := List.Pairwise.nil
  sent_le := fun _ hm => absurd hm List.not_mem_nil
  last_le := fun _ => Nat.le_refl 0
  told_le := fun _ => Nat.le_refl 0
  log := fun _ => rfl
  sent := fun _ _ hm => absurd hm List.not_mem_nil
  once := fun _ => List.Pairwise.nil
  suffix := fun _ => List.suffix_refl []
  order := fun _ _ _ _ _ _ _ ha => absurd ha List.not_mem_nil
  cover := fun _ _ _ ha => absurd ha List.not_mem_nil

theorem Inv.floods_sorted (h : Inv src dst links told top net) :
    (floods net.sent).Pairwise (· < ·) :=
  List.pairwise_map.2 (h.sorted.filter _)

/-- A message is known by its number. -/
theorem Inv.sent_inj (h : Inv src dst links told top net) {m m' : Msg} (hm : m ∈ net.sent)
    (hm' : m' ∈ net.sent) (heq : m.seqno = m'.seqno) : m = m' := by
  have hnodup : (net.sent.map Msg.seqno).Nodup :=
    List.pairwise_map.2 (h.sorted.imp fun hlt => Nat.ne_of_lt hlt)
  exact List.inj_on_of_nodup_map hnodup hm hm' heq

/-- The flooded numbers up to a new one are those below it, and itself. -/
theorem Inv.filter_le (h : Inv src dst links told top net) {m : Msg} (hm : m ∈ net.sent) {k : ℕ}
    (hk : k < m.seqno) (hbelow : ∀ a ∈ floods net.sent, a < m.seqno → a ≤ k) :
    (floods net.sent).filter (· ≤ m.seqno) =
      (floods net.sent).filter (· ≤ k) ++ floods [m] := by
  obtain ⟨l, l', hsplit⟩ := List.append_of_mem hm
  have hs := h.sorted
  rw [hsplit, List.pairwise_append, List.pairwise_cons] at hs
  obtain ⟨-, ⟨hl', -⟩, hl⟩ := hs
  have hlow : ∀ a ∈ floods l, a ≤ k := by
    intro a ha
    obtain ⟨x, hx, hf, rfl⟩ := mem_floods.1 ha
    have hlt := hl x hx m (List.mem_cons_self ..)
    refine hbelow _ (mem_floods.2 ⟨x, ?_, hf, rfl⟩) hlt
    rw [hsplit]
    exact List.mem_append_left _ hx
  have hhigh : ∀ a ∈ floods l', m.seqno < a := by
    intro a ha
    obtain ⟨x, hx, -, rfl⟩ := mem_floods.1 ha
    exact hl' x hx
  have hself : ∀ a ∈ floods [m], a = m.seqno := by
    intro a ha
    obtain ⟨x, hx, -, rfl⟩ := mem_floods.1 ha
    rw [List.mem_singleton.1 hx]
  have hle : ∀ j, k ≤ j → (floods l).filter (· ≤ j) = floods l := by
    intro j hj
    refine List.filter_eq_self.2 fun a ha => ?_
    exact decide_eq_true ((hlow a ha).trans hj)
  have hgt : ∀ j, j ≤ m.seqno → (floods l').filter (· ≤ j) = [] := by
    intro j hj
    refine List.filter_eq_nil_iff.2 fun a ha hc => ?_
    have := hhigh a ha
    have := of_decide_eq_true hc
    omega
  have hin : (floods [m]).filter (· ≤ m.seqno) = floods [m] := by
    refine List.filter_eq_self.2 fun a ha => ?_
    exact decide_eq_true (hself a ha).le
  have hout : (floods [m]).filter (· ≤ k) = [] := by
    refine List.filter_eq_nil_iff.2 fun a ha hc => ?_
    have := hself a ha
    have := of_decide_eq_true hc
    omega
  rw [hsplit, floods_append, floods_cons, List.filter_append, List.filter_append,
    List.filter_append, List.filter_append, hle _ hk.le, hle _ le_rfl, hgt _ le_rfl,
    hgt _ hk.le, hin, hout, List.append_nil, List.append_nil, List.append_nil]

/-! ## §2 The parts of a step -/

theorem le_update [DecidableEq ν] {f : ν → ℕ} {v : ν} {n : ℕ} (h : f v ≤ n) (w : ν) :
    f w ≤ Function.update f v n w := by
  by_cases hw : w = v
  · subst hw
    rw [Function.update_self]
    exact h
  · rw [Function.update_of_ne hw]

theorem Inv.issue (h : Inv src dst links net.last (net.last root) net) {m : Msg}
    (hnew : net.last root < m.seqno) :
    Inv src dst links net.last m.seqno (net.issue m) := by
  have hself : ∀ {a : ℕ}, a ∈ floods [m] → a = m.seqno := by
    intro a ha
    obtain ⟨x, hx, -, rfl⟩ := mem_floods.1 ha
    rw [List.mem_singleton.1 hx]
  refine ⟨?_, ?_, fun v => (h.last_le v).trans hnew.le, fun v => le_rfl, ?_, ?_, h.once, h.suffix,
    ?_, ?_⟩
  · refine List.pairwise_append.2 ⟨h.sorted, List.pairwise_singleton _ _, fun x hx y hy => ?_⟩
    rw [List.mem_singleton.1 hy]
    exact (h.sent_le x hx).trans_lt hnew
  · intro x hx
    rcases List.mem_append.1 hx with hx | hx
    · exact (h.sent_le x hx).trans hnew.le
    · rw [List.mem_singleton.1 hx]
  · intro v
    have hout : (floods [m]).filter (· ≤ net.last v) = [] := by
      refine List.filter_eq_nil_iff.2 fun a ha hc => ?_
      have hle := h.last_le v
      have := hself ha
      have := of_decide_eq_true hc
      omega
    show net.log v = (floods (net.sent ++ [m])).filter (· ≤ net.last v)
    rw [floods_append, List.filter_append, hout, List.append_nil]
    exact h.log v
  · intro e x hx
    obtain ⟨hl, hsent, hle⟩ := h.sent e x hx
    exact ⟨hl, List.mem_append_left _ hsent, hle⟩
  · intro e he q x q' hq a ha hlt
    rw [show (net.issue m).sent = net.sent ++ [m] from rfl, floods_append] at ha
    rcases List.mem_append.1 ha with ha | ha
    · exact h.order e he q x q' hq a ha hlt
    · -- the new message is above all that is on the way
      have hx : x ∈ net.queue e := by
        rw [show net.queue e = q ++ x :: q' from hq]
        exact List.mem_append_right _ (List.mem_cons_self ..)
      have hle := h.sent_le x (h.sent e x ((h.suffix e).subset hx)).2.1
      have := hself ha
      omega
  · intro e he a ha hle
    rw [show (net.issue m).sent = net.sent ++ [m] from rfl, floods_append] at ha
    rcases List.mem_append.1 ha with ha | ha
    · exact h.cover e he a ha hle
    · have hlast := h.last_le (src e)
      have := hself ha
      omega

theorem Inv.take [DecidableEq ν] (h : Inv src dst links net.last top net) {v : ν} {m : Msg} (hm : m ∈ net.sent)
    (hnew : net.last v < m.seqno) (hbelow : ∀ a ∈ floods net.sent, a < m.seqno → a ≤ net.last v) :
    Inv src dst links net.last top (net.take v m) := by
  have hle : ∀ w, net.last w ≤ (net.take v m).last w := le_update hnew.le
  refine ⟨h.sorted, h.sent_le, ?_, hle, ?_, h.sent, h.once, h.suffix, ?_, ?_⟩
  · intro w
    show Function.update net.last v m.seqno w ≤ top
    by_cases hw : w = v
    · rw [hw, Function.update_self]
      exact h.sent_le m hm
    · rw [Function.update_of_ne hw]
      exact h.last_le w
  · intro w
    show Function.update net.log v (net.log v ++ floods [m]) w =
      (floods net.sent).filter (· ≤ Function.update net.last v m.seqno w)
    by_cases hw : w = v
    · rw [hw, Function.update_self, Function.update_self, h.log v]
      exact (h.filter_le hm hnew hbelow).symm
    · rw [Function.update_of_ne hw, Function.update_of_ne hw]
      exact h.log w
  · intro e he q x q' hq a ha hlt
    exact (h.order e he q x q' hq a ha hlt).imp_left fun hl => hl.trans (hle _)
  · intro e he a ha hl
    exact (h.cover e he a ha hl).imp_left fun hl => hl.trans (hle _)

/-- A message that its receiver has passed by comes out of the link. -/
theorem Inv.pop [DecidableEq ε] (h : Inv src dst links told top net) {e : ε} {m : Msg}
    (hhead : (net.queue e).head? = some m) (hold : m.seqno ≤ net.last (dst e)) :
    Inv src dst links told top (net.pop e) := by
  obtain ⟨t, ht⟩ : ∃ t, net.queue e = m :: t := List.head?_eq_some_iff.1 hhead
  have hself : (net.pop e).queue e = t := by
    show Function.update net.queue e (net.queue e).tail e = t
    rw [Function.update_self, ht]
    rfl
  have hother : ∀ e', e' ≠ e → (net.pop e).queue e' = net.queue e' := fun e' he' =>
    Function.update_of_ne he' _ _
  have hdrop : ∀ {a : ℕ}, a ∈ floods (m :: t) → a ≤ net.last (dst e) ∨ a ∈ floods t := by
    intro a ha
    obtain ⟨x, hx, hf, rfl⟩ := mem_floods.1 ha
    rcases List.mem_cons.1 hx with rfl | hx
    · exact .inl hold
    · exact .inr (mem_floods.2 ⟨x, hx, hf, rfl⟩)
  refine ⟨h.sorted, h.sent_le, h.last_le, h.told_le, h.log, h.sent, h.once, ?_, ?_, ?_⟩
  · intro e'
    by_cases he' : e' = e
    · subst he'
      rw [hself]
      refine List.IsSuffix.trans ?_ (h.suffix e')
      rw [ht]
      exact List.suffix_cons m t
    · rw [hother e' he']
      exact h.suffix e'
  · intro e' hl q x q' hq a ha hlt
    by_cases he' : e' = e
    · subst he'
      rw [hself] at hq
      rcases h.order e' hl (m :: q) x q' (by rw [ht, hq]; rfl) a ha hlt with hle | hin
      · exact .inl hle
      · obtain ⟨y, hy, hf, rfl⟩ := mem_floods.1 hin
        rcases List.mem_cons.1 hy with rfl | hy
        · exact .inl hold
        · exact .inr (mem_floods.2 ⟨y, hy, hf, rfl⟩)
    · rw [hother e' he'] at hq
      exact h.order e' hl q x q' hq a ha hlt
  · intro e' hl a ha hle
    by_cases he' : e' = e
    · subst he'
      rw [hself]
      rcases h.cover e' hl a ha hle with hle' | hin
      · exact .inl hle'
      · rw [ht] at hin
        exact hdrop hin
    · rw [hother e' he']
      exact h.cover e' hl a ha hle

/-- What a node took is passed on, over all its links but those to nodes that have it. -/
theorem Inv.push [DecidableEq ε] (h : Inv src dst links told (net.last root) net) {v sender : ν} {m : Msg}
    {outs : Finset ε} (hm : m ∈ net.sent) (htold : told v < m.seqno) (hlast : net.last v = m.seqno)
    (hother : ∀ w, w ≠ v → told w = net.last w)
    (hbelow : ∀ a ∈ floods net.sent, a < m.seqno → a ≤ told v)
    (hsender : m.seqno ≤ net.last sender) (hto : Sends src dst links root m v sender outs) :
    Inv src dst links net.last (net.last root) (net.push outs m) := by
  have hwire : ∀ {e : ε}, e ∈ outs → (net.push outs m).wire e = net.wire e ++ [m] := fun he =>
    if_pos he
  have hwire' : ∀ {e : ε}, e ∉ outs → (net.push outs m).wire e = net.wire e := fun he => if_neg he
  have hqueue : ∀ {e : ε}, e ∈ outs → (net.push outs m).queue e = net.queue e ++ [m] := fun he =>
    if_pos he
  have hqueue' : ∀ {e : ε}, e ∉ outs → (net.push outs m).queue e = net.queue e := fun he => if_neg he
  have hmono : ∀ w, told w ≤ net.last w := h.told_le
  refine ⟨h.sorted, h.sent_le, h.last_le, fun w => le_rfl, h.log, ?_, ?_, ?_, ?_, ?_⟩
  · intro e x hx
    by_cases he : e ∈ outs
    · rw [hwire he] at hx
      rcases List.mem_append.1 hx with hx | hx
      · obtain ⟨hl, hsent, hle⟩ := h.sent e x hx
        exact ⟨hl, hsent, hle.trans (hmono _)⟩
      · rw [List.mem_singleton.1 hx]
        refine ⟨(hto.own e he).1, hm, ?_⟩
        rw [(hto.own e he).2, ← hlast]
    · rw [hwire' he] at hx
      obtain ⟨hl, hsent, hle⟩ := h.sent e x hx
      exact ⟨hl, hsent, hle.trans (hmono _)⟩
  · intro e
    by_cases he : e ∈ outs
    · rw [hwire he]
      refine List.pairwise_append.2 ⟨h.once e, List.pairwise_singleton _ _, fun x hx y hy => ?_⟩
      rw [List.mem_singleton.1 hy]
      have hle := (h.sent e x hx).2.2
      rw [(hto.own e he).2] at hle
      exact hle.trans_lt htold
    · rw [hwire' he]
      exact h.once e
  · intro e
    by_cases he : e ∈ outs
    · rw [hwire he, hqueue he]
      obtain ⟨t, ht⟩ := h.suffix e
      exact ⟨t, by rw [← List.append_assoc, ht]⟩
    · rw [hwire' he, hqueue' he]
      exact h.suffix e
  · intro e hl q x q' hq a ha hlt
    by_cases he : e ∈ outs
    · rw [hqueue he] at hq
      rcases List.eq_nil_or_concat q' with rfl | ⟨q'', y, rfl⟩
      · -- the new message: what is below it went over the link before
        obtain ⟨hq, hx⟩ := List.append_inj' hq rfl
        rw [← hq]
        obtain rfl : m = x := List.singleton_inj.1 hx
        refine h.cover e hl a ha ?_
        rw [(hto.own e he).2]
        exact hbelow a ha hlt
      · rw [List.concat_eq_append, ← List.cons_append, ← List.append_assoc] at hq
        exact h.order e hl q x q'' (List.append_inj' hq rfl).1 a ha hlt
    · rw [hqueue' he] at hq
      exact h.order e hl q x q' hq a ha hlt
  · intro e hl a ha hle
    have hold : a ≤ told (src e) → a ≤ net.last (dst e) ∨ a ∈ floods ((net.push outs m).queue e) := by
      intro hle
      by_cases he : e ∈ outs
      · rw [hqueue he, floods_append]
        exact (h.cover e hl a ha hle).imp_right fun hin => List.mem_append_left _ hin
      · rw [hqueue' he]
        exact h.cover e hl a ha hle
    by_cases hsrc : src e = v
    · rw [hsrc, hlast] at hle
      rcases Nat.lt_or_eq_of_le hle with hlt | rfl
      · exact hold (by rw [hsrc]; exact hbelow a ha hlt)
      · obtain ⟨x, hx, hf, hseq⟩ := mem_floods.1 ha
        obtain rfl := h.sent_inj hx hm hseq
        by_cases hroot : dst e = root
        · rw [hroot]
          exact .inl (h.sent_le x hm)
        · by_cases hs : dst e = sender
          · rw [hs]
            exact .inl hsender
          · have he := hto.all hf e hl hsrc hroot hs
            rw [hqueue he, floods_append]
            exact .inr (List.mem_append_right _ (mem_floods.2 ⟨x, List.mem_singleton_self x, hf, rfl⟩))
    · exact hold (by rw [hother _ hsrc]; exact hle)

/-! ## §3 The runs -/

variable [DecidableEq ν] [DecidableEq ε]

theorem Inv.step {net' : Net ν ε} (h : Inv src dst links net.last (net.last root) net)
    (hs : Step src dst links root net net') :
    Inv src dst links net'.last (net'.last root) net' := by
  cases hs with
  | send m outs hnew hto =>
    have hissue := h.issue hnew
    have hm : m ∈ (net.issue m).sent := List.mem_append_right _ (List.mem_singleton_self m)
    have hbelow : ∀ a ∈ floods (net.issue m).sent, a < m.seqno → a ≤ net.last root := by
      intro a ha hlt
      obtain ⟨x, hx, -, rfl⟩ := mem_floods.1 ha
      rcases List.mem_append.1 hx with hx | hx
      · exact h.sent_le x hx
      · rw [List.mem_singleton.1 hx] at hlt
        exact absurd hlt (Nat.lt_irrefl _)
    have hlast : ((net.issue m).take root m).last root = m.seqno := Function.update_self ..
    have htake : Inv src dst links net.last (((net.issue m).take root m).last root)
        ((net.issue m).take root m) := by
      rw [hlast]
      exact hissue.take hm hnew hbelow
    exact htake.push hm hnew hlast (fun w hw => (Function.update_of_ne hw _ _).symm) hbelow
      hlast.ge hto
  | accept e m outs hhead hnew hto =>
    have hin : m ∈ net.queue e := List.mem_of_mem_head? hhead
    obtain ⟨hl, hm, hle⟩ := h.sent e m ((h.suffix e).subset hin)
    obtain ⟨t, ht⟩ : ∃ t, net.queue e = m :: t := List.head?_eq_some_iff.1 hhead
    have hbelow : ∀ a ∈ floods net.sent, a < m.seqno → a ≤ net.last (dst e) := by
      intro a ha hlt
      rcases h.order e hl [] m t ht a ha hlt with hle | hnil
      · exact hle
      · exact absurd hnil List.not_mem_nil
    have hroot : dst e ≠ root := by
      rintro heq
      have := h.sent_le m hm
      rw [heq] at hnew
      omega
    have htop : (net.take (dst e) m).last root = net.last root :=
      Function.update_of_ne hroot.symm _ _
    have hself : (net.take (dst e) m).last (dst e) = m.seqno := Function.update_self ..
    have htake : Inv src dst links net.last ((net.take (dst e) m).last root)
        (net.take (dst e) m) := by
      rw [htop]
      exact h.take hm hnew hbelow
    have hsender : m.seqno ≤ (net.take (dst e) m).last (src e) :=
      hle.trans (le_update hnew.le (src e))
    have hpop : Inv src dst links net.last (((net.take (dst e) m).pop e).last root)
        ((net.take (dst e) m).pop e) := htake.pop hhead hself.ge
    exact hpop.push hm hnew hself (fun w hw => (Function.update_of_ne hw _ _).symm) hbelow
      hsender hto
  | drop e m hhead hold => exact h.pop hhead hold

theorem Reachable.inv (h : Reachable src dst links root net) :
    Inv src dst links net.last (net.last root) net := by
  induction h with
  | refl => exact Inv.init
  | tail _ hs ih => exact ih.step hs

/-- Every node takes what is flooded in order, and with nothing left out. -/
theorem Reachable.log_initial (h : Reachable src dst links root net) (v : ν) :
    net.log v <+: floods net.sent := by
  rw [h.inv.log v]
  have hsorted := h.inv.floods_sorted
  revert hsorted
  generalize floods net.sent = l
  intro hsorted
  induction l with
  | nil => exact List.prefix_refl []
  | cons a l ih =>
    obtain ⟨ha, hl⟩ := List.pairwise_cons.1 hsorted
    rw [List.filter_cons]
    split_ifs with hle
    · exact List.cons_prefix_cons.2 ⟨rfl, ih hl⟩
    · have hnil : l.filter (· ≤ net.last v) = [] := by
        refine List.filter_eq_nil_iff.2 fun b hb hc => hle ?_
        exact decide_eq_true ((ha b hb).le.trans (of_decide_eq_true hc))
      rw [hnil]
      exact List.nil_prefix

/-- No message goes over a link twice. -/
theorem Reachable.wire_sorted (h : Reachable src dst links root net) (e : ε) :
    (net.wire e).Pairwise fun m m' => m.seqno < m'.seqno := h.inv.once e

/-- With nothing on the way, every node that the links lead to has all that is flooded. -/
theorem Reachable.log_eq (h : Reachable src dst links root net)
    (hquiet : ∀ e ∈ links, net.queue e = []) {v : ν}
    (hv : Relation.ReflTransGen (fun v w => ∃ e ∈ links, src e = v ∧ dst e = w) root v) :
    net.log v = floods net.sent := by
  have hall : ∀ a ∈ floods net.sent, a ≤ net.last v := by
    induction hv with
    | refl =>
      intro a ha
      obtain ⟨m, hm, -, rfl⟩ := mem_floods.1 ha
      exact h.inv.sent_le m hm
    | tail _ he ih =>
      obtain ⟨e, hl, rfl, rfl⟩ := he
      intro a ha
      rcases h.inv.cover e hl a ha (ih a ha) with hle | hin
      · exact hle
      · rw [hquiet e hl] at hin
        exact absurd hin List.not_mem_nil
  rw [h.inv.log v]
  exact List.filter_eq_self.2 fun a ha => decide_eq_true (hall a ha)

end FifoFlood
