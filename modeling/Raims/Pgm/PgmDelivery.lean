import Raims.Pgm.PgmFragments
import Mathlib.Data.List.Nodup

/-!
# What the multicast transport delivers

The fragments of a message that is published come out of the receiver as the message, once
and in order, whatever comes from other sources in between. There are two conditions. The
trail of a message must end in the fragment that the message ends in, or begin with a
fragment: else `on_msg` puts too many bytes into one, and neither the packet nor the
message is right. And the bytes of a message must not be taken for a trailer: the receiver
knows a trailer by what is in it only.
-/

namespace Raims

open Bytes

/-! ## The property and the conditions -/

/-- Where the trailer of a packet begins, if it has one. -/
def Skb.ownEnd (skb : Skb) : Option ℕ :=
  match skb.made with
  | .frag _ _ body :: _ => some body.length
  | _ => none

namespace PgmNet

variable (geom : PgmGeom) (crc : Crc) (s : PgmNet)

/-- The packets of the source that are not received. -/
def packets (tsi : UInt64) : List Skb := (s.source tsi).queue ++ (s.source tsi).lastSkb.toList

/-- What was delivered of the source. -/
def blocks (tsi : UInt64) : List (List UInt8) :=
  (s.recv.delivered.filter fun d => d.1 = tsi).map Prod.snd

/-- Packets fit, each message is delivered once and in order, alone if it is large and
with others of its packet if it is small, and no fragment of it is elsewhere. -/
structure Delivers : Prop where
  fits : ∀ tsi, ∀ skb ∈ s.packets tsi, skb.bytes.length ≤ geom.maxTsdu
  blocks : ∀ tsi, ∃ groups : List (List (List UInt8)), s.blocks tsi = groups.map List.flatten ∧
    groups.flatten <+: (s.source tsi).published ∧
    (s.packets tsi = [] → groups.flatten = (s.source tsi).published) ∧
    ∀ group ∈ groups, ∀ msg ∈ group, group = [msg] ∨ msg.length ≤ geom.maxTsdu
  buffers : ∀ g ∈ s.recv.fragList, ∃ msg ∈ (s.source g.srcId).published, g.buf <+: msg

/-- What is read as a trailer in a packet is its trailer. -/
def Genuine (r : PgmRecv) (skb : Skb) : Prop :=
  (∀ g ∈ r.fragList, g.endsIn skb.bytes = true → skb.ownEnd = some g.left.toNat) ∧
  (skb.ownEnd = none → FragTrailer.isTrailer skb.bytes = true →
    (FragTrailer.ofMsg skb.bytes skb.bytes.length).isFirstFragment crc
        (skb.bytes.take (skb.bytes.length - sizeofTrailer)).length = false ∧
      ∀ g ∈ r.fragList, g.isMatch (FragTrailer.ofMsg skb.bytes skb.bytes.length) = false)

instance (r : PgmRecv) (skb : Skb) : Decidable (Genuine crc r skb) :=
  inferInstanceAs (Decidable (_ ∧ _))

/-- The message fits into a packet, or its trail into the fragment the message ends in. -/
def PublishOk (pub : PgmPublish) : Prop :=
  pub.content.length ≤ geom.maxTsdu ∨
    TrailFits geom.fragSize pub.msg.length (pub.trail.getD []).length

instance (pub : PgmPublish) : Decidable (PublishOk geom pub) := inferInstanceAs (Decidable (_ ∨ _))

/-- The next packet of the source is read as what it is. -/
def RecvOk (r : PgmRecv) : List Skb → Prop
  | [] => True
  | skb :: _ => Genuine crc r skb

instance (r : PgmRecv) : (queue : List Skb) → Decidable (RecvOk crc r queue)
  | [] => instDecidableTrue
  | skb :: _ => inferInstanceAs (Decidable (Genuine crc r skb))

def Ok (s : PgmNet) : Event → Prop
  | .publish _ _ _ pub => PublishOk geom pub
  | .push _ => True
  | .recv tsi => RecvOk crc s.recv (s.source tsi).queue

instance (s : PgmNet) : (e : Event) → Decidable (Ok geom crc s e)
  | .publish _ _ _ pub => inferInstanceAs (Decidable (PublishOk geom pub))
  | .push _ => instDecidableTrue
  | .recv tsi => inferInstanceAs (Decidable (RecvOk crc s.recv (s.source tsi).queue))

end PgmNet

/-! ## The stream of a source -/

/-- What a source puts, if a message of it is pending. -/
inductive PutFollows (crc : Crc) (tsi : UInt64) : Option Fragment → List Put → Prop
  | done : PutFollows crc tsi none []
  | whole {msg : List UInt8} {rest : List Put} :
      msg ≠ [] → PutFollows crc tsi none rest → PutFollows crc tsi none (.whole msg :: rest)
  | first {t : FragTrailer} {body : List UInt8} {rest : List Put} :
      t.srcId = tsi → t.isFirstFragment crc body.length = true → body ≠ [] →
      PutFollows crc tsi (some (.new t body)) rest → PutFollows crc tsi none (.frag false t body :: rest)
  | part {g : Fragment} {body : List UInt8} {rest : List Put} :
      body ≠ [] → body.length < g.left.toNat → PutFollows crc tsi (some (g.merge body)) rest →
      PutFollows crc tsi (some g) (.frag false g.trailer body :: rest)
  | last {g : Fragment} {body : List UInt8} {rest : List Put} :
      body ≠ [] → body.length = g.left.toNat → PutFollows crc tsi none rest →
      PutFollows crc tsi (some g) (.frag true g.trailer body :: rest)

/-- The messages of what is put, after the bytes of one that is pending. -/
def contents : List UInt8 → List Put → List (List UInt8)
  | _, [] => []
  | _, .whole msg :: rest => msg :: contents [] rest
  | acc, .frag false _ body :: rest => contents (acc ++ body) rest
  | acc, .frag true _ body :: rest => (acc ++ body) :: contents [] rest

/-- The bytes of a message that is pending. -/
def pendingBuf (g : Option Fragment) : List UInt8 := (g.map Fragment.buf).getD []

variable {crc : Crc} {tsi : UInt64} {g : Option Fragment} {xs ys : List Put}

theorem PutFollows.append (hx : PutFollows crc tsi g xs) (hy : PutFollows crc tsi none ys) :
    PutFollows crc tsi g (xs ++ ys) := by
  induction hx with
  | done => exact hy
  | whole hmsg _ ih => exact .whole hmsg ih
  | first htsi hfirst hbody _ ih => exact .first htsi hfirst hbody ih
  | part hbody hlt _ ih => exact .part hbody hlt ih
  | last hbody heq _ ih => exact .last hbody heq ih

theorem PutFollows.contents_append (hx : PutFollows crc tsi g xs) :
    contents (pendingBuf g) (xs ++ ys) = contents (pendingBuf g) xs ++ contents [] ys := by
  induction hx with
  | done => rfl
  | whole hmsg _ ih => exact congrArg (_ :: ·) ih
  | first htsi hfirst hbody _ ih => exact ih
  | part hbody hlt _ ih => exact ih
  | last hbody heq _ ih => exact congrArg (_ :: ·) ih

/-- A message that is pending comes next. -/
theorem PutFollows.exists_contents (hx : PutFollows crc tsi g xs) :
    ∀ f, g = some f → ∃ msg rest, contents f.buf xs = msg :: rest ∧ f.buf <+: msg := by
  induction hx with
  | done =>
    intro f hf
    cases hf
  | whole hmsg _ ih =>
    intro f hf
    cases hf
  | first htsi hfirst hbody _ ih =>
    intro f hf
    cases hf
  | part hbody hlt _ ih =>
    intro f hf
    obtain rfl := Option.some.inj hf
    obtain ⟨msg, rest, hcontents, hpre⟩ := ih _ rfl
    exact ⟨msg, rest, hcontents, (List.prefix_append _ _).trans hpre⟩
  | last hbody heq _ ih =>
    intro f hf
    obtain rfl := Option.some.inj hf
    exact ⟨_, _, rfl, List.prefix_append _ _⟩

/-! ### The fragments of a message -/

/-- The word of a length that is one. -/
theorem toNat_ofNat_of_lt {n : ℕ} (h : n < 2 ^ 32) : (UInt32.ofNat n).toNat = n :=
  UInt32.toNat_ofNat_of_lt' h

theorem left_merge {g : Fragment} {body : List UInt8} (hle : body.length ≤ g.left.toNat) :
    (g.merge body).left.toNat = g.left.toNat - body.length := by
  have hlt : body.length < 2 ^ 32 := Nat.lt_of_le_of_lt hle g.left.toNat_lt
  have hword := toNat_ofNat_of_lt hlt
  show (g.left - UInt32.ofNat body.length).toNat = _
  rw [UInt32.toNat_sub_of_le _ _ (UInt32.le_iff_toNat_le.2 (by rw [hword]; exact hle)), hword]

/-- The put of a fragment. -/
def fragPut (t : FragTrailer) (f : Bool × ℕ × List UInt8) : Put :=
  .frag f.1 { t with off := UInt32.ofNat f.2.1 } f.2.2

theorem msgFrags_of_ne {n off : ℕ} {msg : List UInt8} (hpos : 0 < n) (hne : msg ≠ []) :
    msgFrags n off msg = (off, msg.take n) :: msgFrags n (off + n) (msg.drop n) := by
  rw [msgFrags, dif_pos ⟨hpos, hne⟩]

theorem msgFrags_nil (n off : ℕ) : msgFrags n off [] = [] := by
  rw [msgFrags, dif_neg (fun h => h.2 rfl)]

theorem markLast_cons {f : ℕ × List UInt8} {fs : List (ℕ × List UInt8)} (h : fs ≠ []) :
    PgmSource.markLast (f :: fs) = (false, f) :: PgmSource.markLast fs := by
  cases fs with
  | nil => exact absurd rfl h
  | cons f' fs => rfl

/-- The fragments of the rest of a message that is pending. -/
theorem putFollows_frags (crc : Crc) (tsi : UInt64) {n : ℕ} (hpos : 0 < n) (t : FragTrailer) (len : ℕ) :
    ∀ (off : ℕ) (rest : List UInt8) (g : Fragment), rest.length = len → rest ≠ [] →
      g.left.toNat = rest.length → g.off = UInt32.ofNat off →
      g.trailer = { t with off := g.off } →
      PutFollows crc tsi (some g) ((PgmSource.markLast (msgFrags n off rest)).map (fragPut t)) ∧
        contents g.buf ((PgmSource.markLast (msgFrags n off rest)).map (fragPut t)) =
          [g.buf ++ rest] := by
  induction len using Nat.strong_induction_on with
  | _ len ih =>
    intro off rest g hlen hne hleft hoff htrailer
    have hput : ∀ b body, fragPut t (b, off, body) = .frag b g.trailer body := by
      intro b body
      rw [htrailer, hoff]
      rfl
    rw [msgFrags_of_ne hpos hne]
    by_cases hdrop : rest.drop n = []
    · -- the last fragment
      have htake : rest.take n = rest := List.take_of_length_le (List.drop_eq_nil_iff.1 hdrop)
      rw [hdrop, msgFrags_nil, htake]
      show PutFollows _ _ _ [fragPut t (true, off, rest)] ∧
        contents _ [fragPut t (true, off, rest)] = _
      rw [hput]
      exact ⟨.last hne hleft.symm .done, rfl⟩
    · have hlt : n < rest.length := by
        rw [← Nat.not_le]
        exact fun hle => hdrop (List.drop_eq_nil_iff.2 hle)
      have hbody : (rest.take n).length = n := List.length_take_of_le hlt.le
      have hfrags : msgFrags n (off + n) (rest.drop n) ≠ [] := by
        rw [msgFrags_of_ne hpos hdrop]
        exact List.cons_ne_nil _ _
      rw [markLast_cons hfrags, List.map_cons, hput]
      have hmerge : (g.merge (rest.take n)).left.toNat = (rest.drop n).length := by
        rw [left_merge (by omega), hleft, hbody, List.length_drop]
      have hoff' : (g.merge (rest.take n)).off = UInt32.ofNat (off + n) := by
        show g.off + UInt32.ofNat (rest.take n).length = _
        rw [hbody, hoff, UInt32.ofNat_add]
      have htrailer' : (g.merge (rest.take n)).trailer =
          { t with off := (g.merge (rest.take n)).off } := by
        show { g.trailer with off := (g.merge (rest.take n)).off } = _
        rw [htrailer]
      obtain ⟨hfollows, hcontents⟩ := ih (rest.drop n).length
        (by rw [List.length_drop]; omega) (off + n) (rest.drop n) _ rfl hdrop hmerge hoff' htrailer'
      refine ⟨.part ?_ ?_ hfollows, ?_⟩
      · rw [← List.length_pos_iff]
        omega
      · omega
      · show contents (g.merge (rest.take n)).buf _ = _
        rw [hcontents]
        show [g.buf ++ rest.take n ++ rest.drop n] = _
        rw [List.append_assoc, List.take_append_drop]

/-- The fragments of a message are its puts. -/
theorem putFollows_message (crc : Crc) (tsi : UInt64) {n : ℕ} (hpos : 0 < n) (now : UInt64) {msg : List UInt8}
    (hlt : n < msg.length) (hword : msg.length < 2 ^ 32) :
    let t := FragTrailer.new crc tsi now (UInt32.ofNat msg.length)
    let puts := (PgmSource.markLast (msgFrags n 0 msg)).map (fragPut t)
    PutFollows crc tsi none puts ∧ contents [] puts = [msg] := by
  intro t puts
  have hne : msg ≠ [] := List.length_pos_iff.1 (Nat.lt_of_le_of_lt (Nat.zero_le n) hlt)
  have hdrop : msg.drop n ≠ [] := fun hnil => absurd (List.drop_eq_nil_iff.1 hnil) (Nat.not_le.2 hlt)
  have hbody : (msg.take n).length = n := List.length_take_of_le hlt.le
  have hlen : t.msgLen.toNat = msg.length := toNat_ofNat_of_lt hword
  have hputs : puts = .frag false t (msg.take n) ::
      (PgmSource.markLast (msgFrags n (0 + n) (msg.drop n))).map (fragPut t) := by
    show (PgmSource.markLast (msgFrags n 0 msg)).map (fragPut t) = _
    have hfrags : msgFrags n (0 + n) (msg.drop n) ≠ [] := by
      rw [msgFrags_of_ne hpos hdrop]
      exact List.cons_ne_nil _ _
    rw [msgFrags_of_ne hpos hne, markLast_cons hfrags]
    rfl
  have hleft : (Fragment.new t (msg.take n)).left.toNat = (msg.drop n).length := by
    have hle : (msg.take n).length ≤ t.msgLen.toNat := by omega
    have hmerge := left_merge
      (g := ⟨t.srcId, t.srcTime, t.hash, 0, t.msgLen, t.msgLen, []⟩) hle
    exact hmerge.trans (by
      show t.msgLen.toNat - _ = _
      rw [hlen, hbody, List.length_drop])
  have hoff : (Fragment.new t (msg.take n)).off = UInt32.ofNat (0 + n) := by
    show 0 + UInt32.ofNat (msg.take n).length = _
    rw [hbody, UInt32.ofNat_add]
    rfl
  obtain ⟨hfollows, hcontents⟩ := putFollows_frags crc tsi hpos t _ (0 + n)
    (msg.drop n) (.new t (msg.take n)) rfl hdrop hleft hoff rfl
  rw [hputs]
  constructor
  · refine .first rfl ?_ ?_ hfollows
    · unfold FragTrailer.isFirstFragment
      rw [hlen, hbody]
      simp [t, FragTrailer.new, FragTrailer.crcOf, hlt]
    · rw [← List.length_pos_iff]
      omega
  · show contents (Fragment.new t (msg.take n)).buf _ = _
    rw [hcontents]
    show [msg.take n ++ msg.drop n] = _
    rw [List.take_append_drop]

/-! ## The packets of a source -/

/-- A packet has messages after what is first in it, and a fragment that is not the last
one of its message fills it. -/
structure SkbOk (geom : PgmGeom) (skb : Skb) : Prop where
  made : ∃ (p : Put) (ms : List (List UInt8)), skb.made = p :: ms.map .whole ∧
    skb.bytes = p.bytes ++ ms.flatten ∧
    ∀ t body, p = .frag false t body → ms = [] ∧ skb.bytes.length = geom.maxTsdu
  fits : skb.bytes.length ≤ geom.maxTsdu
  ne : skb.bytes ≠ []

namespace PgmSource

variable {geom : PgmGeom} {src : PgmSource}

/-- What is in the packets that are not received. -/
def inflight (src : PgmSource) : List Put := (src.queue ++ src.lastSkb.toList).flatMap Skb.made

def PacketsOk (geom : PgmGeom) (src : PgmSource) : Prop :=
  ∀ skb ∈ src.queue ++ src.lastSkb.toList, SkbOk geom skb

theorem allocSkb_eq {p : Put} {front tail : List UInt8} (hp : front ++ tail = p.bytes)
    (hle : p.bytes.length ≤ geom.maxTsdu) :
    src.allocSkb p front tail =
      ⟨some ⟨p.bytes, [p]⟩, src.queue ++ src.lastSkb.toList, src.published⟩ := by
  unfold allocSkb nextSkb
  dsimp only
  rw [hp, Nat.mod_eq_of_lt (Nat.lt_of_le_of_lt hle geom.lt_word), List.take_length]

theorem packetsOk_allocSkb (hok : src.PacketsOk geom) {p : Put} {front tail : List UInt8}
    (hp : front ++ tail = p.bytes) (hle : p.bytes.length ≤ geom.maxTsdu) (hne : p.bytes ≠ [])
    (hfull : ∀ t body, p = .frag false t body → p.bytes.length = geom.maxTsdu) :
    (src.allocSkb p front tail).PacketsOk geom ∧
      (src.allocSkb p front tail).inflight = src.inflight ++ [p] := by
  rw [allocSkb_eq hp hle]
  constructor
  · intro skb hskb
    rcases List.mem_append.1 hskb with hskb | hskb
    · exact hok skb hskb
    · obtain rfl := List.mem_singleton.1 hskb
      exact ⟨⟨p, [], rfl, (List.append_nil _).symm, fun t body hp => ⟨rfl, hfull t body hp⟩⟩, hle, hne⟩
  · unfold inflight
    rw [List.flatMap_append]
    rfl

/-- A small message is put into the last packet or into a new one. -/
theorem packetsOk_putWhole (hok : src.PacketsOk geom) (room : Bool) {msg : List UInt8}
    (hne : msg ≠ []) (hle : msg.length ≤ geom.maxTsdu) :
    (src.putSendWindow geom room (.whole msg) msg []).PacketsOk geom ∧
      (src.putSendWindow geom room (.whole msg) msg []).inflight =
        src.inflight ++ [.whole msg] := by
  have halloc := packetsOk_allocSkb hok (p := .whole msg) (List.append_nil msg) hle hne
    (fun t body heq => by cases heq)
  unfold putSendWindow
  split
  · exact halloc
  · next skb hlast =>
    split
    · next hroom =>
      rw [List.append_nil] at hroom
      obtain ⟨⟨p, ms, hmade, hbytes, hfull⟩, hfits, hskb⟩ :=
        hok skb (by rw [hlast]; exact List.mem_append_right _ List.mem_cons_self)
      have hpos := List.length_pos_iff.2 hne
      constructor
      · intro skb' hskb'
        rcases List.mem_append.1 hskb' with hskb' | hskb'
        · exact hok skb' (List.mem_append_left _ hskb')
        · obtain rfl := List.mem_singleton.1 hskb'
          refine ⟨⟨p, ms ++ [msg], ?_, ?_, ?_⟩, ?_, ?_⟩
          · show skb.made ++ [Put.whole msg] = _
            rw [hmade, List.map_append]
            rfl
          · show skb.bytes ++ msg = _
            rw [hbytes, List.flatten_append, List.append_assoc]
            simp
          · intro t body hp
            have hlen := (hfull t body hp).2
            omega
          · show (skb.bytes ++ msg).length ≤ _
            rw [List.length_append]
            exact hroom.2
          · intro hnil
            exact hskb (List.append_eq_nil_iff.1 hnil).1
      · unfold inflight
        rw [hlast, List.flatMap_append, List.flatMap_append]
        simp
    · exact halloc

/-- A fragment is put into a new packet: the last one has no room for it. -/
theorem packetsOk_putFrag (hok : src.PacketsOk geom) (t : FragTrailer) (trail : Bool)
    (room : ℕ → Bool) {f : Bool × ℕ × List UInt8}
    (hle : f.2.2.length ≤ geom.fragSize)
    (hfull : f.1 = false → f.2.2.length = geom.fragSize)
    (htight : f.2.2.length = geom.fragSize ∨
      ∃ skb, src.lastSkb = some skb ∧ skb.bytes.length = geom.maxTsdu) :
    (putFrag geom t trail room src f).PacketsOk geom ∧
      (putFrag geom t trail room src f).inflight = src.inflight ++ [fragPut t f] ∧
      ∃ skb, (putFrag geom t trail room src f).lastSkb = some skb ∧
        skb.bytes.length = f.2.2.length + sizeofTrailer := by
  set t' : FragTrailer := { t with off := UInt32.ofNat f.2.1 } with ht'
  have htsdu : geom.fragSize + sizeofTrailer = geom.maxTsdu :=
    Nat.sub_add_cancel geom.trailer_lt.le
  have hbytes : (fragPut t f).bytes = f.2.2 ++ t'.bytes := rfl
  have hlen : (fragPut t f).bytes.length = f.2.2.length + sizeofTrailer := by
    rw [hbytes, List.length_append, t'.length_bytes]
  have hpos : 0 < sizeofTrailer := by decide
  -- both ways of passing the trailer come to a new packet
  have hnew : ∀ front tail : List UInt8, front ++ tail = (fragPut t f).bytes →
      src.putSendWindow geom (room f.2.1) (fragPut t f) front tail =
        src.allocSkb (fragPut t f) front tail := by
    intro front tail hft
    unfold putSendWindow
    split
    · rfl
    · next skb hlast =>
      refine if_neg fun hroom => ?_
      have hskb := hok skb (by rw [hlast]; exact List.mem_append_right _ List.mem_cons_self)
      have hne := List.length_pos_iff.2 hskb.ne
      rw [hft, hlen] at hroom
      rcases htight with hsize | ⟨skb', hlast', hsize⟩
      · omega
      · rw [hlast] at hlast'
        obtain rfl := Option.some.inj hlast'
        omega
  have hput : ∃ front tail, front ++ tail = (fragPut t f).bytes ∧
      putFrag geom t trail room src f = src.allocSkb (fragPut t f) front tail := by
    unfold putFrag
    extract_lets
    split
    · exact ⟨f.2.2, t'.bytes, rfl, hnew _ _ rfl⟩
    · exact ⟨f.2.2 ++ t'.bytes, [], List.append_nil _, hnew _ _ (List.append_nil _)⟩
  obtain ⟨front, tail, hft, heq⟩ := hput
  rw [heq]
  have hfits : (fragPut t f).bytes.length ≤ geom.maxTsdu := by omega
  have hne : (fragPut t f).bytes ≠ [] := by
    rw [← List.length_pos_iff]
    omega
  obtain ⟨hok', hinflight⟩ := packetsOk_allocSkb hok hft hfits hne (by
    intro t₁ body hp
    have hlast : f.1 = false := (Put.frag.inj hp).1
    rw [hlen, hfull hlast, htsdu])
  refine ⟨hok', hinflight, ⟨⟨(fragPut t f).bytes, [fragPut t f]⟩, ?_, hlen⟩⟩
  rw [allocSkb_eq hft hfits]

/-- The fragments of a message are put in a row. -/
theorem packetsOk_putFrags (t : FragTrailer) (trail : Bool) (room : ℕ → Bool) (len : ℕ) :
    ∀ (off : ℕ) (rest : List UInt8) (src : PgmSource), rest.length = len → src.PacketsOk geom →
      (geom.fragSize ≤ rest.length ∨
        ∃ skb, src.lastSkb = some skb ∧ skb.bytes.length = geom.maxTsdu) →
      ((markLast (msgFrags geom.fragSize off rest)).foldl (putFrag geom t trail room)
          src).PacketsOk geom ∧
        ((markLast (msgFrags geom.fragSize off rest)).foldl (putFrag geom t trail room)
            src).inflight =
          src.inflight ++ (markLast (msgFrags geom.fragSize off rest)).map (fragPut t) := by
  have hpos : 0 < geom.fragSize := Nat.sub_pos_of_lt geom.trailer_lt
  have htsdu : geom.fragSize + sizeofTrailer = geom.maxTsdu :=
    Nat.sub_add_cancel geom.trailer_lt.le
  induction len using Nat.strong_induction_on with
  | _ len ih =>
    intro off rest src hlen hok htight
    by_cases hnil : rest = []
    · rw [hnil, msgFrags_nil]
      exact ⟨hok, (List.append_nil _).symm⟩
    rw [msgFrags_of_ne hpos hnil]
    have hbody : (rest.take geom.fragSize).length = min geom.fragSize rest.length :=
      List.length_take
    have hle : (rest.take geom.fragSize).length ≤ geom.fragSize := by
      rw [hbody]
      exact Nat.min_le_left _ _
    have htight' : (rest.take geom.fragSize).length = geom.fragSize ∨
        ∃ skb, src.lastSkb = some skb ∧ skb.bytes.length = geom.maxTsdu := by
      refine htight.imp_left fun hle => ?_
      rw [hbody, Nat.min_eq_left hle]
    by_cases hdrop : rest.drop geom.fragSize = []
    · rw [hdrop, msgFrags_nil]
      obtain ⟨hok', hinflight, -⟩ := packetsOk_putFrag hok t trail room
        (f := (true, off, rest.take geom.fragSize)) hle (fun h => by cases h) htight'
      exact ⟨hok', hinflight⟩
    · have hlt : geom.fragSize < rest.length := by
        rw [← Nat.not_le]
        exact fun hle => hdrop (List.drop_eq_nil_iff.2 hle)
      have hfull : (rest.take geom.fragSize).length = geom.fragSize := by
        rw [hbody, Nat.min_eq_left hlt.le]
      have hfrags : msgFrags geom.fragSize (off + geom.fragSize) (rest.drop geom.fragSize) ≠ [] := by
        rw [msgFrags_of_ne hpos hdrop]
        exact List.cons_ne_nil _ _
      rw [markLast_cons hfrags, List.foldl_cons, List.map_cons]
      obtain ⟨hok', hinflight, skb, hlast, hskb⟩ := packetsOk_putFrag hok t trail room
        (f := (false, off, rest.take geom.fragSize)) hle (fun _ => hfull) htight'
      obtain ⟨hdone, hputs⟩ := ih (rest.drop geom.fragSize).length
        (by rw [List.length_drop]; omega) (off + geom.fragSize) (rest.drop geom.fragSize) _ rfl
        hok' (Or.inr ⟨skb, hlast, by rw [hskb]; dsimp only; rw [hfull, htsdu]⟩)
      refine ⟨hdone, ?_⟩
      rw [hputs, hinflight, List.append_assoc]
      rfl

theorem length_content (pub : PgmPublish) : pub.content.length =
    pub.msg.length + (pub.trail.getD []).length + (pub.trail.getD []).length % 2 := by
  unfold PgmPublish.content
  rw [List.length_append, List.length_append, List.length_replicate, Nat.add_assoc]

/-- The fragments of a message are those of its bytes in a row. -/
theorem frags_eq {pub : PgmPublish}
    (hfits : TrailFits geom.fragSize pub.msg.length (pub.trail.getD []).length) :
    frags geom pub = msgFrags geom.fragSize 0 pub.content := by
  have hpos : 0 < geom.fragSize := Nat.sub_pos_of_lt geom.trailer_lt
  have hword : geom.fragSize < 2 ^ 16 := Nat.lt_of_le_of_lt (Nat.sub_le _ _) geom.lt_word
  have hlen := length_content pub
  unfold frags
  cases htrail : pub.trail with
  | none =>
    dsimp only
    unfold PgmPublish.content
    rw [htrail]
    simp
  | some trail =>
    dsimp only
    rw [htrail] at hfits hlen
    rw [trailFrags_eq hword hpos _ 0 (trail.length % 2) pub.msg trail hlen
      (Nat.le_of_lt_succ (Nat.mod_lt _ (by decide))) hfits]
    unfold PgmPublish.content
    rw [htrail]
    rfl

theorem content_ne (pub : PgmPublish) : pub.content ≠ [] :=
  fun hnil => pub.msg_ne (List.append_eq_nil_iff.1 hnil).1

/-- What is published comes to the end of the stream. -/
theorem onMsg_spec (hok : src.PacketsOk geom) (crc : Crc) (tsi now : UInt64) (room : ℕ → Bool)
    {pub : PgmPublish} (hpub : PgmNet.PublishOk geom pub) :
    (src.onMsg geom crc tsi now room pub).PacketsOk geom ∧
      ∃ puts, (src.onMsg geom crc tsi now room pub).inflight = src.inflight ++ puts ∧
        PutFollows crc tsi none puts ∧ contents [] puts = [pub.content] := by
  set src' : PgmSource := { src with published := src.published ++ [pub.content] } with hsrc'
  have hok' : src'.PacketsOk geom := hok
  unfold onMsg
  dsimp only
  split
  · next hle =>
    obtain ⟨hdone, hputs⟩ := packetsOk_putWhole hok' (room 0) (content_ne pub) hle
    exact ⟨hdone, [.whole pub.content], hputs, .whole (content_ne pub) .done, rfl⟩
  · next hlt =>
    have hfits := hpub.resolve_left hlt
    have hsize : geom.fragSize < pub.content.length :=
      Nat.lt_of_le_of_lt (Nat.sub_le _ _) (Nat.lt_of_not_le hlt)
    have hword : pub.content.length < 2 ^ 32 := by
      rw [length_content]
      exact pub.lt_word
    rw [frags_eq hfits]
    obtain ⟨hdone, hputs⟩ := packetsOk_putFrags
      (FragTrailer.new crc tsi now (UInt32.ofNat pub.content.length)) pub.trail.isSome room _ 0
      pub.content src' rfl hok' (Or.inl hsize.le)
    obtain ⟨hfollows, hcontents⟩ := putFollows_message crc tsi
      (Nat.sub_pos_of_lt geom.trailer_lt) now hsize hword
    exact ⟨hdone, _, hputs, hfollows, hcontents⟩

end PgmSource

/-! ## Receiving -/

namespace Fragment

/-- The bytes that are merged are those up to the offset, and at least one is left. -/
structure PendOk (g : Fragment) : Prop where
  off : g.off.toNat = g.buf.length
  left : g.left.toNat + g.buf.length = g.msgLen.toNat
  ne : g.buf ≠ []

variable {g : Fragment}

theorem isMatch_iff {t : FragTrailer} : g.isMatch t = true ↔ t = g.trailer := by
  obtain ⟨srcId, srcTime, off, msgLen, hash, mark⟩ := t
  unfold isMatch trailer
  simp only [Bool.and_eq_true, decide_eq_true_eq, FragTrailer.mk.injEq]
  constructor
  · rintro ⟨⟨⟨⟨⟨rfl, rfl⟩, rfl⟩, rfl⟩, rfl⟩, rfl⟩
    exact ⟨rfl, rfl, rfl, rfl, rfl, rfl⟩
  · rintro ⟨rfl, rfl, rfl, rfl, rfl, rfl⟩
    exact ⟨⟨⟨⟨⟨rfl, rfl⟩, rfl⟩, rfl⟩, rfl⟩, rfl⟩

theorem PendOk.merge (hg : g.PendOk) {body : List UInt8} (hlt : body.length < g.left.toNat) :
    (g.merge body).PendOk where
  off := by
    have hword := g.left.toNat_lt
    have hmsg := g.msgLen.toNat_lt
    have hleft := hg.left
    show (g.off + UInt32.ofNat body.length).toNat = (g.buf ++ body).length
    rw [UInt32.toNat_add, toNat_ofNat_of_lt (by omega), hg.off, List.length_append,
      Nat.mod_eq_of_lt (by omega)]
  left := by
    rw [left_merge hlt.le]
    show _ + (g.buf ++ body).length = g.msgLen.toNat
    rw [List.length_append, ← hg.left]
    omega
  ne := fun hnil => hg.ne (List.append_eq_nil_iff.1 hnil).1

theorem PendOk.new {t : FragTrailer} {body : List UInt8} (hne : body ≠ [])
    (hlt : body.length < t.msgLen.toNat) : (Fragment.new t body).PendOk where
  off := by
    show (0 + UInt32.ofNat body.length).toNat = ([] ++ body).length
    have hword := t.msgLen.toNat_lt
    rw [UInt32.zero_add, toNat_ofNat_of_lt (by omega), List.nil_append]
  left := by
    show (Fragment.merge ⟨t.srcId, t.srcTime, t.hash, 0, t.msgLen, t.msgLen, []⟩
      body).left.toNat + ([] ++ body).length = t.msgLen.toNat
    rw [left_merge hlt.le, List.nil_append]
    exact Nat.sub_add_cancel hlt.le
  ne := hne

end Fragment

namespace PgmRecv

variable {geom : PgmGeom} {r : PgmRecv} {rest : List Put}

/-- The message of the source that is pending. -/
def pending (r : PgmRecv) (tsi : UInt64) : Option Fragment :=
  r.fragList.find? fun g => g.srcId = tsi

/-- One message of each source is pending at most. -/
structure FragsOk (r : PgmRecv) : Prop where
  distinct : (r.fragList.map Fragment.srcId).Nodup
  pend : ∀ g ∈ r.fragList, g.PendOk

/-- The messages that are pending around the one of a source. -/
theorem FragsOk.split (hr : r.FragsOk) {g : Fragment} (hg : r.pending tsi = some g) :
    g.srcId = tsi ∧ ∃ l₁ l₂, r.fragList = l₁ ++ g :: l₂ ∧
      (∀ x ∈ l₁, x.srcId ≠ tsi) ∧ ∀ x ∈ l₂, x.srcId ≠ tsi := by
  have hsrc : g.srcId = tsi := by
    have hfound := List.find?_some hg
    exact of_decide_eq_true hfound
  obtain ⟨l₁, l₂, hsplit⟩ := List.append_of_mem (List.mem_of_find?_eq_some hg)
  have hnodup := hr.distinct
  rw [hsplit, List.map_append, List.map_cons] at hnodup
  have hmiddle := (List.nodup_middle.1 hnodup)
  have hnot := (List.nodup_cons.1 hmiddle).1
  rw [hsrc, List.mem_append] at hnot
  refine ⟨hsrc, l₁, l₂, hsplit, fun x hx heq => ?_, fun x hx heq => ?_⟩
  · exact hnot (Or.inl (heq ▸ List.mem_map_of_mem hx))
  · exact hnot (Or.inr (heq ▸ List.mem_map_of_mem hx))

theorem find?_eq_none_of_ne {l : List Fragment} (h : ∀ x ∈ l, x.srcId ≠ tsi) :
    l.find? (fun g => g.srcId = tsi) = none :=
  List.find?_eq_none.2 fun x hx => by simpa using h x hx

/-- What is pending of other sources does not depend on what is of this one. -/
theorem find?_middle {l₁ l₂ : List Fragment} (mid mid' : List Fragment) {tsi' : UInt64}
    (hne : ∀ x ∈ mid, x.srcId ≠ tsi') (hne' : ∀ x ∈ mid', x.srcId ≠ tsi') :
    (l₁ ++ (mid ++ l₂)).find? (fun g => g.srcId = tsi') =
      (l₁ ++ (mid' ++ l₂)).find? (fun g => g.srcId = tsi') := by
  rw [List.find?_append, List.find?_append, List.find?_append, List.find?_append,
    find?_eq_none_of_ne hne, find?_eq_none_of_ne hne']

theorem dispatchData_of_ne (r : PgmRecv) (tsi : UInt64) {data : List UInt8} (h : data ≠ []) :
    r.dispatchData tsi data = { r with delivered := r.delivered ++ [(tsi, data)] } := if_neg h

/-- A packet with a fragment ends no message but one of its source, and there only where
its trailer is. -/
theorem endsIn_frag {skb : Skb} (hgen : PgmNet.Genuine crc r skb) {last : Bool} {t : FragTrailer}
    {body : List UInt8} {puts : List Put} {more : List UInt8}
    (hmade : skb.made = .frag last t body :: puts)
    (hbytes : skb.bytes = body ++ (t.bytes ++ more)) {g : Fragment} (hg : g ∈ r.fragList)
    (hends : g.endsIn skb.bytes = true) : g.left.toNat = body.length ∧ t = g.trailer := by
  have hown := hgen.1 g hg hends
  have hlen : body.length = g.left.toNat := by
    unfold Skb.ownEnd at hown
    rw [hmade] at hown
    exact Option.some.inj hown
  unfold Fragment.endsIn at hends
  rw [Bool.and_eq_true, ← hlen, hbytes, FragTrailer.ofMsg_append] at hends
  exact ⟨hlen.symm, Fragment.isMatch_iff.1 hends.2⟩

/-- What a packet does that is received: other sources do not see it, and what it completes
is delivered. -/
structure Receives (geom : PgmGeom) (crc : Crc) (r : PgmRecv) (tsi : UInt64) (skb : Skb)
    (rest : List Put) : Prop where
  frags : (r.process crc tsi skb.bytes).FragsOk
  others : ∀ tsi', tsi' ≠ tsi → (r.process crc tsi skb.bytes).pending tsi' = r.pending tsi'
  follows : PutFollows crc tsi ((r.process crc tsi skb.bytes).pending tsi) rest
  delivers : ∃ groups : List (List (List UInt8)),
    (r.process crc tsi skb.bytes).delivered =
      r.delivered ++ groups.map (fun group => (tsi, group.flatten)) ∧
    contents (pendingBuf (r.pending tsi)) (skb.made ++ rest) = groups.flatten ++
      contents (pendingBuf ((r.process crc tsi skb.bytes).pending tsi)) rest ∧
    ∀ group ∈ groups, ∀ msg ∈ group, group = [msg] ∨ msg.length ≤ geom.maxTsdu

/-- The messages after what is first in a packet. -/
theorem putFollows_wholes {ms : List (List UInt8)}
    (h : PutFollows crc tsi none (ms.map .whole ++ rest)) :
    PutFollows crc tsi none rest ∧ (∀ msg ∈ ms, msg ≠ []) ∧
      contents [] (ms.map .whole ++ rest) = ms ++ contents [] rest := by
  induction ms with
  | nil => exact ⟨h, (fun _ hm => by cases hm), rfl⟩
  | cons m ms ih =>
    cases h with
    | whole hm hrest =>
      obtain ⟨hfollows, hne, hcontents⟩ := ih hrest
      refine ⟨hfollows, fun msg hmsg => ?_, congrArg (m :: ·) hcontents⟩
      rcases List.mem_cons.1 hmsg with rfl | hmsg
      · exact hm
      · exact hne msg hmsg

theorem length_le_flatten {ms : List (List UInt8)} {msg : List UInt8} (h : msg ∈ ms) :
    msg.length ≤ ms.flatten.length :=
  (List.sublist_flatten_of_mem h).length_le

/-- A packet of messages only. -/
theorem receives_whole (hr : r.FragsOk) {skb : Skb} (hskb : SkbOk geom skb)
    (hgen : PgmNet.Genuine crc r skb) (ms : List (List UInt8))
    (hmade : skb.made = ms.map .whole) (hbytes : skb.bytes = ms.flatten)
    (hown : skb.ownEnd = none) (hnone : r.pending tsi = none)
    (hfollows : PutFollows crc tsi none (skb.made ++ rest)) : Receives geom crc r tsi skb rest := by
  have hfind : r.fragList.find? (fun g => g.endsIn skb.bytes) = none := by
    refine List.find?_eq_none.2 fun g hg hends => ?_
    rw [hgen.1 g hg hends] at hown
    cases hown
  have hmerge : FragTrailer.isTrailer skb.bytes = true →
      mergeFirst (FragTrailer.ofMsg skb.bytes skb.bytes.length)
        (skb.bytes.take (skb.bytes.length - sizeofTrailer)) r.fragList = none := by
    intro htrailer
    have hnot := (hgen.2 hown htrailer).2
    generalize r.fragList = l at hnot
    induction l with
    | nil => rfl
    | cons g l ih =>
      rw [mergeFirst, hnot g List.mem_cons_self, if_neg Bool.false_ne_true,
        ih fun x hx => hnot x (List.mem_cons_of_mem g hx)]
      rfl
  have hprocess : r.process crc tsi skb.bytes =
      { r with delivered := r.delivered ++ [(tsi, skb.bytes)] } := by
    rw [← dispatchData_of_ne r tsi hskb.ne]
    unfold process
    split
    · unfold processFragment
      rw [hfind]
      unfold processWhole
      dsimp only
      split
      · next htrailer =>
        rw [(hgen.2 hown htrailer).1, if_neg Bool.false_ne_true, hmerge htrailer]
      · rfl
    · rfl
  rw [hmade] at hfollows
  obtain ⟨hrest, -, hcontents⟩ := putFollows_wholes hfollows
  have hpending : ∀ tsi', (r.process crc tsi skb.bytes).pending tsi' = r.pending tsi' := by
    rw [hprocess]
    exact fun _ => rfl
  refine ⟨?_, fun tsi' _ => hpending tsi', ?_, ⟨[ms], ?_, ?_, ?_⟩⟩
  · rw [hprocess]
    exact ⟨hr.distinct, hr.pend⟩
  · rw [hpending, hnone]
    exact hrest
  · rw [hprocess, hbytes]
    rfl
  · rw [hpending, hnone, hmade, List.flatten_singleton]
    exact hcontents
  · intro group hgroup msg hmsg
    obtain rfl := List.mem_singleton.1 hgroup
    right
    exact (length_le_flatten hmsg).trans (hbytes ▸ hskb.fits)

/-- A packet with a fragment that ends no message is read by its trailer. -/
theorem process_frag (crc : Crc) (tsi : UInt64) {t : FragTrailer} {body : List UInt8}
    (hbody : body ≠ []) (hmark : t.mark = trailerMark)
    (hfind : r.fragList.find? (fun g => g.endsIn (body ++ t.bytes)) = none) :
    r.process crc tsi (body ++ t.bytes) =
      if t.isFirstFragment crc body.length then
        { r with fragList := r.fragList ++ [Fragment.new t body] }
      else (mergeFirst t body r.fragList).elim (r.dispatchData tsi (body ++ t.bytes))
        fun fragList => { r with fragList := fragList } := by
  have htrailer := t.isTrailer_end hbody hmark
  have htake : (body ++ t.bytes).take ((body ++ t.bytes).length - sizeofTrailer) = body := by
    rw [List.length_append, t.length_bytes, Nat.add_sub_cancel, List.take_left]
  unfold process
  rw [if_pos (Or.inr htrailer)]
  unfold processFragment
  rw [hfind]
  unfold processWhole
  dsimp only
  rw [if_pos htrailer, t.ofMsg_end, htake]
  cases mergeFirst t body r.fragList with
  | none => rfl
  | some fragList => rfl

/-- The first fragment of a message. -/
theorem receives_first (hr : r.FragsOk) {skb : Skb} (hgen : PgmNet.Genuine crc r skb)
    {t : FragTrailer} {body : List UInt8} (hmade : skb.made = [.frag false t body])
    (hbytes : skb.bytes = body ++ t.bytes) (hnone : r.pending tsi = none) (htsi : t.srcId = tsi)
    (hfirst : t.isFirstFragment crc body.length = true) (hbody : body ≠ [])
    (hfollows : PutFollows crc tsi (some (.new t body)) rest) : Receives geom crc r tsi skb rest := by
  have hnot : ∀ g ∈ r.fragList, g.srcId ≠ tsi := by
    intro g hg
    have hno := List.find?_eq_none.1 hnone g hg
    simpa using hno
  have hfind : r.fragList.find? (fun g => g.endsIn (body ++ t.bytes)) = none := by
    refine List.find?_eq_none.2 fun g hg hends => ?_
    have hmore : skb.bytes = body ++ (t.bytes ++ []) := by rw [hbytes, List.append_nil]
    rw [← hbytes] at hends
    obtain ⟨-, ht⟩ := endsIn_frag hgen hmade hmore hg hends
    exact hnot g hg ((congrArg FragTrailer.srcId ht).symm.trans htsi)
  obtain ⟨⟨⟨hoff, hlt⟩, hmark⟩, hhash⟩ :
      ((t.off = 0 ∧ body.length < t.msgLen.toNat) ∧ t.mark = trailerMark) ∧
        t.crcOf crc = t.hash := by
    unfold FragTrailer.isFirstFragment at hfirst
    simpa using hfirst
  have hprocess : r.process crc tsi skb.bytes =
      { r with fragList := r.fragList ++ [Fragment.new t body] } := by
    have hfrag := process_frag crc tsi hbody hmark hfind
    rw [hbytes]
    exact hfrag.trans (if_pos hfirst)
  have hself : (r.process crc tsi skb.bytes).pending tsi = some (.new t body) := by
    rw [hprocess]
    unfold pending
    rw [List.find?_append, find?_eq_none_of_ne hnot, Option.none_or]
    exact List.find?_cons_of_pos (p := fun g : Fragment => g.srcId = tsi) (decide_eq_true htsi)
  refine ⟨?_, ?_, ?_, ⟨[], ?_, ?_, fun _ hgroup => by cases hgroup⟩⟩
  · rw [hprocess]
    refine ⟨?_, ?_⟩
    · rw [List.map_append]
      refine List.Nodup.append hr.distinct (List.nodup_singleton _) ?_
      intro x hx hx'
      obtain ⟨g, hg, rfl⟩ := List.mem_map.1 hx
      exact hnot g hg ((List.mem_singleton.1 hx').trans htsi)
    · intro g hg
      rcases List.mem_append.1 hg with hg | hg
      · exact hr.pend g hg
      · rw [List.mem_singleton.1 hg]
        exact Fragment.PendOk.new hbody hlt
  · intro tsi' hne
    rw [hprocess]
    unfold pending
    rw [List.find?_append, find?_eq_none_of_ne (l := [Fragment.new t body]), Option.or_none]
    intro x hx heq
    rw [List.mem_singleton.1 hx] at heq
    exact hne (heq.symm.trans htsi)
  · rw [hself]
    exact hfollows
  · rw [hprocess, List.map_nil, List.append_nil]
  · rw [hself, hnone, hmade, List.flatten_nil, List.nil_append]
    rfl

theorem mergeFirst_middle {t : FragTrailer} {body : List UInt8} {g : Fragment}
    {l₁ l₂ : List Fragment} (hnot : ∀ x ∈ l₁, x.isMatch t = false) (hg : g.isMatch t = true) :
    mergeFirst t body (l₁ ++ g :: l₂) = some (l₁ ++ g.merge body :: l₂) := by
  induction l₁ with
  | nil => exact if_pos hg
  | cons x l₁ ih =>
    rw [List.cons_append, mergeFirst, hnot x List.mem_cons_self, if_neg Bool.false_ne_true,
      ih fun y hy => hnot y (List.mem_cons_of_mem x hy)]
    rfl

/-- A fragment in the middle of a message. -/
theorem receives_part (hr : r.FragsOk) {skb : Skb} (hgen : PgmNet.Genuine crc r skb)
    {g : Fragment} {body : List UInt8} (hmade : skb.made = [.frag false g.trailer body])
    (hbytes : skb.bytes = body ++ g.trailer.bytes) (hg : r.pending tsi = some g)
    (hbody : body ≠ []) (hlt : body.length < g.left.toNat)
    (hfollows : PutFollows crc tsi (some (g.merge body)) rest) :
    Receives geom crc r tsi skb rest := by
  obtain ⟨hsrc, l₁, l₂, hsplit, hl₁, hl₂⟩ := hr.split hg
  have hmem : g ∈ r.fragList := List.mem_of_find?_eq_some hg
  have hone : ∀ x ∈ r.fragList, x.srcId = tsi → x = g := by
    intro x hx heq
    rw [hsplit, List.mem_append, List.mem_cons] at hx
    rcases hx with hx | rfl | hx
    · exact absurd heq (hl₁ x hx)
    · rfl
    · exact absurd heq (hl₂ x hx)
  have hfind : r.fragList.find? (fun x => x.endsIn (body ++ g.trailer.bytes)) = none := by
    refine List.find?_eq_none.2 fun x hx hends => ?_
    have hmore : skb.bytes = body ++ (g.trailer.bytes ++ []) := by rw [hbytes, List.append_nil]
    rw [← hbytes] at hends
    obtain ⟨hleft, ht⟩ := endsIn_frag hgen hmade hmore hx hends
    have hxg := hone x hx ((congrArg FragTrailer.srcId ht).symm.trans hsrc)
    rw [hxg] at hleft
    omega
  have hnotFirst : g.trailer.isFirstFragment crc body.length = false := by
    have hoff := (hr.pend g hmem).off
    have hpos := List.length_pos_iff.2 (hr.pend g hmem).ne
    have hne : g.off ≠ 0 := by
      intro hzero
      rw [hzero] at hoff
      exact absurd hoff.symm (Nat.ne_of_gt hpos)
    unfold FragTrailer.isFirstFragment
    rw [show (decide (g.trailer.off = 0)) = false from decide_eq_false hne]
    rfl
  have hnotMatch : ∀ x ∈ l₁, x.isMatch g.trailer = false := by
    intro x hx
    rw [Bool.eq_false_iff]
    intro hmatch
    have ht := congrArg FragTrailer.srcId (Fragment.isMatch_iff.1 hmatch)
    exact hl₁ x hx (ht.symm.trans hsrc)
  have hprocess : r.process crc tsi skb.bytes =
      { r with fragList := l₁ ++ g.merge body :: l₂ } := by
    have hfrag := process_frag crc tsi hbody rfl hfind
    rw [hnotFirst, if_neg Bool.false_ne_true, hsplit,
      mergeFirst_middle hnotMatch (Fragment.isMatch_iff.2 rfl)] at hfrag
    rw [hbytes]
    exact hfrag
  have hself : (r.process crc tsi skb.bytes).pending tsi = some (g.merge body) := by
    rw [hprocess]
    unfold pending
    rw [List.find?_append, find?_eq_none_of_ne hl₁, Option.none_or]
    exact List.find?_cons_of_pos (p := fun g : Fragment => g.srcId = tsi) (decide_eq_true hsrc)
  refine ⟨?_, ?_, ?_, ⟨[], ?_, ?_, fun _ hgroup => by cases hgroup⟩⟩
  · rw [hprocess]
    refine ⟨?_, ?_⟩
    · have hnodup := hr.distinct
      rw [hsplit, List.map_append, List.map_cons] at hnodup
      rw [List.map_append, List.map_cons]
      exact hnodup
    · intro x hx
      rcases List.mem_append.1 hx with hx | hx
      · exact hr.pend x (by rw [hsplit]; exact List.mem_append_left _ hx)
      · rcases List.mem_cons.1 hx with rfl | hx
        · exact (hr.pend g hmem).merge hlt
        · exact hr.pend x (by
            rw [hsplit]
            exact List.mem_append_right _ (List.mem_cons_of_mem _ hx))
  · intro tsi' hne
    rw [hprocess]
    unfold pending
    rw [hsplit]
    refine find?_middle [g.merge body] [g] ?_ ?_
    · intro x hx heq
      rw [List.mem_singleton.1 hx] at heq
      exact hne (heq.symm.trans hsrc)
    · intro x hx heq
      rw [List.mem_singleton.1 hx] at heq
      exact hne (heq.symm.trans hsrc)
  · rw [hself]
    exact hfollows
  · rw [hprocess, List.map_nil, List.append_nil]
  · rw [hself, hg, hmade, List.flatten_nil, List.nil_append]
    rfl

/-- The last fragment of a message, with messages after it. -/
theorem receives_last (hr : r.FragsOk) {skb : Skb} (hskb : SkbOk geom skb)
    (hgen : PgmNet.Genuine crc r skb) {g : Fragment} {body : List UInt8} {ms : List (List UInt8)}
    (hmade : skb.made = .frag true g.trailer body :: ms.map .whole)
    (hbytes : skb.bytes = body ++ (g.trailer.bytes ++ ms.flatten)) (hg : r.pending tsi = some g)
    (hlen : body.length = g.left.toNat)
    (hfollows : PutFollows crc tsi none (ms.map .whole ++ rest)) :
    Receives geom crc r tsi skb rest := by
  obtain ⟨hsrc, l₁, l₂, hsplit, hl₁, hl₂⟩ := hr.split hg
  have hmem : g ∈ r.fragList := List.mem_of_find?_eq_some hg
  have hpend := hr.pend g hmem
  have hends : g.endsIn skb.bytes = true := by
    unfold Fragment.endsIn
    rw [← hlen, hbytes, FragTrailer.ofMsg_append, Fragment.isMatch_iff.2 rfl, Bool.and_true,
      decide_eq_true_eq, List.length_append, List.length_append, g.trailer.length_bytes]
    omega
  have hnot : ∀ x ∈ l₁, ¬ x.endsIn skb.bytes = true := by
    intro x hx hends
    obtain ⟨-, ht⟩ := endsIn_frag hgen hmade hbytes
      (by rw [hsplit]; exact List.mem_append_left _ hx) hends
    exact hl₁ x hx ((congrArg FragTrailer.srcId ht).symm.trans hsrc)
  have hfind : r.fragList.find? (fun x => x.endsIn skb.bytes) = some g := by
    rw [hsplit, List.find?_append, List.find?_eq_none.2 hnot, Option.none_or,
      List.find?_cons_of_pos (p := fun x : Fragment => x.endsIn skb.bytes) hends]
  have herase : r.fragList.eraseP (fun x => x.endsIn skb.bytes) = l₁ ++ l₂ := by
    rw [hsplit, List.eraseP_append_right _ hnot,
      List.eraseP_cons_of_pos (p := fun x : Fragment => x.endsIn skb.bytes) hends]
  have hmsg : ((g.merge (skb.bytes.take g.left.toNat)).buf.take g.msgLen.toNat) =
      g.buf ++ body := by
    show (g.buf ++ skb.bytes.take g.left.toNat).take _ = _
    rw [hbytes, ← hlen, List.take_left, List.take_of_length_le]
    have hleft := hpend.left
    rw [List.length_append]
    omega
  have hrest : skb.bytes.drop (g.left.toNat + sizeofTrailer) = ms.flatten := by
    rw [hbytes, ← hlen, ← List.append_assoc]
    refine List.drop_left' ?_
    rw [List.length_append, g.trailer.length_bytes]
  have hne : g.buf ++ body ≠ [] := fun hnil => hpend.ne (List.append_eq_nil_iff.1 hnil).1
  obtain ⟨hfollows', hms, hcontents⟩ := putFollows_wholes hfollows
  -- the messages after the fragment are one more group, if there are any
  have hprocess : r.process crc tsi skb.bytes =
      ⟨l₁ ++ l₂, r.delivered ++ ([[g.buf ++ body]] ++ if ms = [] then [] else [ms]).map
        fun group => (tsi, group.flatten)⟩ := by
    unfold process
    rw [if_pos (Or.inl (by rw [hsplit]; simp))]
    unfold processFragment
    rw [hfind]
    dsimp only
    rw [hmsg, hrest, herase, dispatchData_of_ne r tsi hne]
    by_cases hnil : ms = []
    · rw [hnil, if_pos rfl]
      simp [dispatchData]
    · rw [if_neg hnil]
      have hflat : ms.flatten ≠ [] := by
        intro hflat
        obtain ⟨m, ms', rfl⟩ := List.exists_cons_of_ne_nil hnil
        exact hms m List.mem_cons_self (List.flatten_eq_nil_iff.1 hflat m List.mem_cons_self)
      rw [dispatchData_of_ne _ tsi hflat]
      simp
  have hself : (r.process crc tsi skb.bytes).pending tsi = none := by
    rw [hprocess]
    refine find?_eq_none_of_ne fun x hx => ?_
    rcases List.mem_append.1 hx with hx | hx
    · exact hl₁ x hx
    · exact hl₂ x hx
  refine ⟨?_, ?_, ?_, ⟨[[g.buf ++ body]] ++ if ms = [] then [] else [ms], ?_, ?_, ?_⟩⟩
  · rw [hprocess]
    have hsub : (l₁ ++ l₂).Sublist r.fragList := by
      rw [hsplit]
      exact (List.Sublist.refl l₁).append (List.sublist_cons_self g l₂)
    exact ⟨hr.distinct.sublist (hsub.map _), fun x hx => hr.pend x (hsub.subset hx)⟩
  · intro tsi' hne'
    rw [hprocess]
    unfold pending
    rw [hsplit]
    refine find?_middle [] [g] (fun x hx => by cases hx) ?_
    intro x hx heq
    rw [List.mem_singleton.1 hx] at heq
    exact hne' (heq.symm.trans hsrc)
  · rw [hself]
    exact hfollows'
  · rw [hprocess]
  · rw [hself, hg, hmade]
    show (g.buf ++ body) :: contents [] (ms.map .whole ++ rest) = _
    rw [hcontents]
    by_cases hnil : ms = []
    · rw [if_pos hnil, hnil]
      rfl
    · rw [if_neg hnil]
      simp [pendingBuf]
  · intro group hgroup msg hmem'
    rcases List.mem_append.1 hgroup with hgroup | hgroup
    · obtain rfl := List.mem_singleton.1 hgroup
      left
      rw [List.mem_singleton.1 hmem']
    · right
      split at hgroup
      · cases hgroup
      · obtain rfl := List.mem_singleton.1 hgroup
        refine (length_le_flatten hmem').trans (Nat.le_trans ?_ hskb.fits)
        rw [hbytes, List.length_append, List.length_append]
        omega

/-- A packet that is received, whatever is in it. -/
theorem receives (hr : r.FragsOk) {skb : Skb} (hskb : SkbOk geom skb)
    (hgen : PgmNet.Genuine crc r skb)
    (hfollows : PutFollows crc tsi (r.pending tsi) (skb.made ++ rest)) :
    Receives geom crc r tsi skb rest := by
  obtain ⟨p, ms, hmade, hbytes, hfull⟩ := hskb.made
  rw [hmade, List.cons_append] at hfollows
  generalize hpend : r.pending tsi = pend at hfollows
  cases hfollows with
  | whole hne hrest =>
    refine receives_whole hr hskb hgen (_ :: ms) hmade hbytes ?_ hpend ?_
    · unfold Skb.ownEnd
      rw [hmade]
    · rw [hmade]
      exact .whole hne hrest
  | first htsi hfirst hbody hrest =>
    obtain ⟨rfl, -⟩ := hfull _ _ rfl
    rw [List.flatten_nil, List.append_nil] at hbytes
    exact receives_first hr hgen hmade hbytes hpend htsi hfirst hbody hrest
  | part hbody hlt hrest =>
    obtain ⟨rfl, -⟩ := hfull _ _ rfl
    rw [List.flatten_nil, List.append_nil] at hbytes
    exact receives_part hr hgen hmade hbytes hpend hbody hlt hrest
  | last hbody hlen hrest =>
    refine receives_last hr hskb hgen hmade ?_ hpend hlen hrest
    rw [hbytes, ← List.append_assoc]
    rfl

end PgmRecv

/-! ## Runs -/

namespace PgmNet

variable {geom : PgmGeom} {s : PgmNet}

/-- What was delivered of a source and what is on the way is what it published. -/
structure Inv (geom : PgmGeom) (crc : Crc) (s : PgmNet) : Prop where
  frags : s.recv.FragsOk
  packets : ∀ tsi, (s.source tsi).PacketsOk geom
  follows : ∀ tsi, PutFollows crc tsi (s.recv.pending tsi) (s.source tsi).inflight
  blocks : ∀ tsi, ∃ groups : List (List (List UInt8)), s.blocks tsi = groups.map List.flatten ∧
    (s.source tsi).published = groups.flatten ++
      contents (pendingBuf (s.recv.pending tsi)) (s.source tsi).inflight ∧
    ∀ group ∈ groups, ∀ msg ∈ group, group = [msg] ∨ msg.length ≤ geom.maxTsdu

theorem Inv.delivers (hi : Inv geom crc s) : s.Delivers geom where
  fits tsi skb hskb := (hi.packets tsi skb hskb).fits
  blocks tsi := by
    obtain ⟨groups, hblocks, hpublished, hgroups⟩ := hi.blocks tsi
    refine ⟨groups, hblocks, ⟨_, hpublished.symm⟩, fun hnil => ?_, hgroups⟩
    have hinflight : (s.source tsi).inflight = [] := by
      have hpackets : (s.source tsi).queue ++ (s.source tsi).lastSkb.toList = [] := hnil
      unfold PgmSource.inflight
      rw [hpackets]
      rfl
    rw [hpublished, hinflight]
    exact (List.append_nil _).symm
  buffers g hg := by
    obtain ⟨groups, -, hpublished, -⟩ := hi.blocks g.srcId
    -- it is the one of its source that is pending
    obtain ⟨g', hg'⟩ : ∃ g', s.recv.pending g.srcId = some g' :=
      Option.isSome_iff_exists.1 (List.find?_isSome.2 ⟨g, hg, by simp⟩)
    obtain ⟨-, l₁, l₂, hsplit, hl₁, hl₂⟩ := hi.frags.split hg'
    have hgg' : g = g' := by
      rw [hsplit, List.mem_append, List.mem_cons] at hg
      rcases hg with hg | hg | hg
      · exact absurd rfl (hl₁ g hg)
      · exact hg
      · exact absurd rfl (hl₂ g hg)
    rw [← hgg'] at hg'
    obtain ⟨msg, rest, hcontents, hpre⟩ := (hi.follows g.srcId).exists_contents g hg'
    refine ⟨msg, ?_, hpre⟩
    rw [hpublished, hg']
    show msg ∈ groups.flatten ++ contents g.buf _
    rw [hcontents]
    exact List.mem_append_right _ List.mem_cons_self

theorem inv_start : Inv geom crc start := by
  refine ⟨⟨List.nodup_nil, fun g hg => ?_⟩, fun tsi skb hskb => ?_, fun tsi => PutFollows.done,
    fun tsi => ⟨[], rfl, rfl, fun group hgroup => ?_⟩⟩
  · cases hg
  · cases hskb
  · cases hgroup

/-- One source changes, and not the receiver. -/
theorem Inv.setSource (hi : Inv geom crc s) {tsi : UInt64} {src : PgmSource}
    (new : List (List UInt8)) (hpublished : src.published = (s.source tsi).published ++ new)
    (hpackets : src.PacketsOk geom) (hfollows : PutFollows crc tsi (s.recv.pending tsi) src.inflight)
    (hcontents : contents (pendingBuf (s.recv.pending tsi)) src.inflight =
      contents (pendingBuf (s.recv.pending tsi)) (s.source tsi).inflight ++ new) :
    Inv geom crc (s.setSource tsi src) := by
  have hself : (s.setSource tsi src).source tsi = src := Function.update_self _ _ _
  have hother : ∀ tsi', tsi' ≠ tsi → (s.setSource tsi src).source tsi' = s.source tsi' :=
    fun _ hne => Function.update_of_ne hne _ _
  refine ⟨hi.frags, fun tsi' => ?_, fun tsi' => ?_, fun tsi' => ?_⟩
  · by_cases hne : tsi' = tsi
    · subst hne
      rw [hself]
      exact hpackets
    · rw [hother tsi' hne]
      exact hi.packets tsi'
  · by_cases hne : tsi' = tsi
    · subst hne
      rw [hself]
      exact hfollows
    · rw [hother tsi' hne]
      exact hi.follows tsi'
  · by_cases hne : tsi' = tsi
    · subst hne
      obtain ⟨groups, hblocks, hold, hgroups⟩ := hi.blocks tsi'
      refine ⟨groups, hblocks, ?_, hgroups⟩
      rw [hself, hpublished, hold, List.append_assoc]
      exact congrArg (groups.flatten ++ ·) hcontents.symm
    · rw [hother tsi' hne]
      exact hi.blocks tsi'

theorem published_putSendWindow (src : PgmSource) (room : Bool) (p : Put)
    (front tail : List UInt8) :
    (src.putSendWindow geom room p front tail).published = src.published := by
  unfold PgmSource.putSendWindow
  split
  · rfl
  · split
    · rfl
    · rfl

theorem published_onMsg (src : PgmSource) (tsi now : UInt64) (room : ℕ → Bool)
    (pub : PgmPublish) :
    (src.onMsg geom crc tsi now room pub).published = src.published ++ [pub.content] := by
  have hfold : ∀ (t : FragTrailer) (fs : List (Bool × ℕ × List UInt8)) (src : PgmSource),
      (fs.foldl (PgmSource.putFrag geom t pub.trail.isSome room) src).published =
        src.published := by
    intro t fs
    induction fs with
    | nil => exact fun _ => rfl
    | cons f fs ih =>
      intro src
      rw [List.foldl_cons, ih]
      unfold PgmSource.putFrag
      extract_lets
      split
      · exact published_putSendWindow _ _ _ _ _
      · exact published_putSendWindow _ _ _ _ _
  unfold PgmSource.onMsg
  dsimp only
  split
  · exact published_putSendWindow _ _ _ _ _
  · exact hfold _ _ _

theorem Inv.publish (hi : Inv geom crc s) (tsi now : UInt64) (room : ℕ → Bool)
    {pub : PgmPublish} (hpub : PublishOk geom pub) :
    Inv geom crc (s.step geom crc (.publish tsi now room pub)) := by
  obtain ⟨hpackets, puts, hinflight, hfollows, hcontents⟩ :=
    PgmSource.onMsg_spec (hi.packets tsi) crc tsi now room hpub
  refine hi.setSource [pub.content] (published_onMsg _ _ _ _ _) hpackets ?_ ?_
  · rw [hinflight]
    exact (hi.follows tsi).append hfollows
  · rw [hinflight, (hi.follows tsi).contents_append, hcontents]

theorem Inv.push (hi : Inv geom crc s) (tsi : UInt64) :
    Inv geom crc (s.step geom crc (.push tsi)) := by
  have hpackets : (s.source tsi).nextSkb.queue ++ (s.source tsi).nextSkb.lastSkb.toList =
      (s.source tsi).queue ++ (s.source tsi).lastSkb.toList := List.append_nil _
  have hinflight : (s.source tsi).nextSkb.inflight = (s.source tsi).inflight := by
    unfold PgmSource.inflight
    rw [hpackets]
  refine hi.setSource [] (List.append_nil _).symm ?_ ?_ ?_
  · intro skb hskb
    rw [hpackets] at hskb
    exact hi.packets tsi skb hskb
  · rw [hinflight]
    exact hi.follows tsi
  · rw [hinflight, List.append_nil]

theorem Inv.recv (hi : Inv geom crc s) (tsi : UInt64)
    (hok : RecvOk crc s.recv (s.source tsi).queue) :
    Inv geom crc (s.step geom crc (.recv tsi)) := by
  show Inv geom crc (s.recvSkb crc tsi (s.source tsi).queue)
  cases hqueue : (s.source tsi).queue with
  | nil => exact hi
  | cons skb queue =>
    rw [hqueue] at hok
    set src' : PgmSource := { s.source tsi with queue := queue } with hsrc'
    have hinflight : (s.source tsi).inflight = skb.made ++ src'.inflight := by
      unfold PgmSource.inflight
      rw [hqueue]
      rfl
    have hskb : SkbOk geom skb := hi.packets tsi skb (by
      rw [hqueue]
      exact List.mem_append_left _ List.mem_cons_self)
    have hfollows := hi.follows tsi
    rw [hinflight] at hfollows
    obtain ⟨hfrags, hothers, hrest, groups, hdelivered, hcontents, hgroups⟩ :=
      PgmRecv.receives hi.frags hskb hok hfollows
    set r' := s.recv.process crc tsi skb.bytes with hr'
    have hself : (s.recvSkb crc tsi (skb :: queue)).source tsi = src' := Function.update_self _ _ _
    have hother : ∀ tsi', tsi' ≠ tsi →
        (s.recvSkb crc tsi (skb :: queue)).source tsi' = s.source tsi' :=
      fun _ hne => Function.update_of_ne hne _ _
    have hrecv : (s.recvSkb crc tsi (skb :: queue)).recv = r' := rfl
    have hblocks : ∀ tsi', (s.recvSkb crc tsi (skb :: queue)).blocks tsi' =
        s.blocks tsi' ++ if tsi' = tsi then groups.map List.flatten else [] := by
      intro tsi'
      unfold PgmNet.blocks
      rw [hrecv, hdelivered, List.filter_append, List.map_append, List.filter_map]
      congr 1
      by_cases hne : tsi' = tsi
      · subst hne
        simp [Function.comp_def]
      · simp [Function.comp_def, Ne.symm hne, hne]
    refine ⟨hfrags, fun tsi' => ?_, fun tsi' => ?_, fun tsi' => ?_⟩
    · by_cases hne : tsi' = tsi
      · subst hne
        rw [hself]
        intro x hx
        refine hi.packets tsi' x ?_
        rw [hqueue]
        exact List.mem_cons_of_mem skb hx
      · rw [hother tsi' hne]
        exact hi.packets tsi'
    · by_cases hne : tsi' = tsi
      · subst hne
        rw [hself, hrecv]
        exact hrest
      · rw [hother tsi' hne, hrecv, hothers tsi' hne]
        exact hi.follows tsi'
    · obtain ⟨old, hold, hpublished, hgroups'⟩ := hi.blocks tsi'
      by_cases hne : tsi' = tsi
      · subst hne
        refine ⟨old ++ groups, ?_, ?_, ?_⟩
        · rw [hblocks, if_pos rfl, hold, List.map_append]
        · rw [hself, hrecv]
          show (s.source tsi').published = _
          rw [hpublished, hinflight, hcontents, List.flatten_append, List.append_assoc]
        · intro group hgroup
          rcases List.mem_append.1 hgroup with hgroup | hgroup
          · exact hgroups' group hgroup
          · exact hgroups group hgroup
      · refine ⟨old, ?_, ?_, hgroups'⟩
        · rw [hblocks, if_neg hne, List.append_nil, hold]
        · rw [hother tsi' hne, hrecv, hothers tsi' hne]
          exact hpublished

theorem inv_step (hi : Inv geom crc s) (e : Event) (hok : Ok geom crc s e) :
    Inv geom crc (s.step geom crc e) := by
  cases e with
  | publish tsi now room pub => exact hi.publish tsi now room hok
  | push tsi => exact hi.push tsi
  | recv tsi => exact hi.recv tsi hok

/-- **Packets fit and messages are delivered as they were published, if no trail is cut by
the end of a fragment that the message ends in, and no bytes of a message are taken for
a trailer.** -/
theorem delivers_of_ok (geom : PgmGeom) (crc : Crc) (s : PgmNet)
    (hr : Run.Reach (step geom crc) (Ok geom crc) start s) : s.Delivers geom :=
  Inv.delivers (hr.invariant inv_start fun _ e hi hok => inv_step hi e hok)

/-- `kv_crc_c` as the CRC-32C instruction computes it, from 0. -/
def crc32c : Crc := fun bytes => bytes.foldl (fun c b =>
  (List.range 8).foldl (fun c _ => if c &&& 1 = 1 then (c >>> 1) ^^^ 0x82f63b78 else c >>> 1)
    (c ^^^ b.toUInt32)) 0

/-- Packets of 40 bytes: a fragment has 8. -/
def smallGeom : PgmGeom := ⟨40, by decide, by decide⟩

/-- A message of 33 bytes with a trail. -/
def trailPub (trail : List UInt8) (h : trail.length < 2 ^ 8) : PgmPublish :=
  ⟨List.replicate 33 1, some trail, by decide, by
    have := List.length_replicate (n := 33) (a := (1 : UInt8))
    rw [Option.getD_some]
    omega⟩

/-- What the source 1 has put after it published a message in the fragments. -/
def fragsPut (frags : List (ℕ × List UInt8)) (pub : PgmPublish) : PgmNet :=
  start.setSource 1 ((PgmSource.markLast frags).foldl
    (PgmSource.putFrag smallGeom (FragTrailer.new crc32c 1 0 (UInt32.ofNat pub.content.length))
      pub.trail.isSome fun _ => true)
    ⟨none, [], [pub.content]⟩)

theorem step_publish {frags : List (ℕ × List UInt8)} {pub : PgmPublish}
    (hlarge : smallGeom.maxTsdu < pub.content.length) (hfrags : PgmSource.frags smallGeom pub = frags) :
    step smallGeom crc32c start (.publish 1 0 (fun _ => true) pub) = fragsPut frags pub := by
  unfold step PgmSource.onMsg fragsPut
  dsimp only
  rw [if_neg (Nat.not_le.2 hlarge), hfrags]
  rfl

/-- The trail of 7 bytes ends with the fragment, and the padding is in one of its own. A
message of another source is received in between. -/
def trailRun : List Event :=
  [.publish 1 0 (fun _ => true) (trailPub (List.replicate 7 2) (by decide)),
    .publish 2 0 (fun _ => true) ⟨[4, 4, 4], none, by decide, by decide⟩, .push 1, .push 2,
    .recv 1, .recv 1, .recv 2, .recv 1, .recv 1, .recv 1, .recv 1]

theorem delivers_trailRun :
    Run.AllOk (step smallGeom crc32c) (Ok smallGeom crc32c) start trailRun ∧
      (trailRun.foldl (step smallGeom crc32c) start).Delivers smallGeom := by
  have hfrags : PgmSource.frags smallGeom (trailPub (List.replicate 7 2) (by decide)) =
      [(0, List.replicate 8 1), (8, List.replicate 8 1), (16, List.replicate 8 1),
        (24, List.replicate 8 1), (32, 1 :: List.replicate 7 2), (40, [0])] := by
    simp [PgmSource.frags, trailPub, trailFrags, trailSizes, PgmGeom.fragSize, smallGeom,
      PgmPublish.content, sizeofTrailer]
  have hok : Run.AllOk (step smallGeom crc32c) (Ok smallGeom crc32c) start trailRun := by
    refine ⟨by decide, ?_⟩
    rw [step_publish (by decide) hfrags]
    decide +kernel
  exact ⟨hok, delivers_of_ok smallGeom crc32c _ (Run.Reach.start.foldl hok)⟩

/-- The trail of 8 bytes is not cut where the fragment ends. -/
def cutTrail : List Event :=
  [.publish 1 0 (fun _ => true) (trailPub (List.replicate 8 2) (by decide)), .push 1]

theorem cutTrail_not_delivers :
    ¬ ∀ k, ((cutTrail.take k).foldl (step smallGeom crc32c) start).Delivers smallGeom := by
  intro hall
  have hfrags : PgmSource.frags smallGeom (trailPub (List.replicate 8 2) (by decide)) =
      [(0, List.replicate 8 1), (8, List.replicate 8 1), (16, List.replicate 8 1),
        (24, List.replicate 8 1), (32, 1 :: List.replicate 8 2 ++ [0]), (40, [0])] := by
    simp [PgmSource.frags, trailPub, trailFrags, trailSizes, PgmGeom.fragSize, smallGeom,
      PgmPublish.content, sizeofTrailer]
  have hfits := (hall 2).fits 1
  revert hfits
  show ¬ ∀ skb ∈ packets (step smallGeom crc32c (step smallGeom crc32c start
    (.publish 1 0 (fun _ => true) (trailPub (List.replicate 8 2) (by decide)))) (.push 1)) 1, _
  rw [step_publish (by decide) hfrags]
  decide +kernel

end PgmNet

end Raims
