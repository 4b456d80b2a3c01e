import Raims.Conn.ConnectMgr

/-!
# Timers and wake-ups

A context never has a second timer, whatever the order of the callbacks. A context
that waits is in the slot of the transport it waits for, so it is woken when the
last connection of that transport goes, as long as no second one comes to wait
there: the slot holds one.
-/

namespace Raims

/-! ## Timers -/

def ConnectCtx.OneTimer (x : ConnectCtx) : Prop := x.timers = if x.timerActive then 1 else 0

theorem ConnectCtx.OneTimer.setState {x : ConnectCtx} (h : x.OneTimer) (s : ConnectState)
    (clear : Bool) : (x.setState s clear).OneTimer := by
  unfold ConnectCtx.OneTimer at h
  cases clear with
  | false => exact h
  | true =>
    cases hact : x.timerActive with
    | false =>
      rw [hact] at h
      simp [ConnectCtx.setState, ConnectCtx.OneTimer, hact, h]
    | true =>
      rw [hact] at h
      simp [ConnectCtx.setState, ConnectCtx.OneTimer, hact, h]

/-- The old timer goes before the new one comes. -/
theorem ConnectCtx.OneTimer.startTimer {x : ConnectCtx} (h : x.OneTimer) :
    x.startTimer.OneTimer := by
  have hset := h.setState .timer true
  have hoff : (x.setState .timer true).timerActive = false := by
    cases hact : x.timerActive <;> simp [ConnectCtx.setState, hact]
  simp only [ConnectCtx.OneTimer, hoff] at hset
  simp [ConnectCtx.startTimer, ConnectCtx.OneTimer, hset]

namespace ConnectMgr

variable {g : ConnectMgr}

theorem OneTimer.setCtx (h : g.OneTimer) (c : ℕ) {x : ConnectCtx} (hx : x.OneTimer) :
    (g.setCtx c x).OneTimer := by
  intro c'
  by_cases hc : c' = c
  · subst hc
    simpa [ConnectMgr.setCtx, ConnectCtx.OneTimer] using hx
  · simpa [ConnectMgr.setCtx, hc] using h c'

theorem OneTimer.setTport (h : g.OneTimer) (r : ℕ) (t : ConnTport) :
    (g.setTport r t).OneTimer := h

theorem OneTimer.setFlags (h : g.OneTimer) (c : ℕ) (f : ConnTport → ConnTport) :
    (g.setFlags c f).OneTimer := by
  unfold ConnectMgr.setFlags
  split <;> exact h

theorem OneTimer.connectCtx (h : g.OneTimer) (c timeout now : ℕ) :
    (g.connectCtx c timeout now).OneTimer := by
  unfold ConnectMgr.connectCtx
  split
  · exact h
  · refine OneTimer.setFlags (h.setCtx c ?_) c _
    exact ConnectCtx.OneTimer.setState (h c) .getAddress true

theorem OneTimer.notify (h : g.OneTimer) (r now : ℕ) : (g.notify r now).OneTimer := by
  unfold ConnectMgr.notify
  split
  · exact h
  · next c _ =>
      show (if (g.ctx c).state = .shutdown then g.reconnect c now else g).OneTimer
      split
      · exact h.connectCtx c _ now
      · exact h

theorem OneTimer.tportOnShutdown (h : g.OneTimer) (r : ℕ) (fd : Option ℕ) (l : Bool)
    (now : ℕ) : (g.tportOnShutdown r fd l now).OneTimer := by
  unfold ConnectMgr.tportOnShutdown
  dsimp only
  split
  · split
    · split
      · exact (h.setTport r _).notify r now
      · exact h
    · split <;> exact h
  · split <;> exact h

theorem OneTimer.ctxClosed (h : g.OneTimer) (c : ℕ) (fd : Option ℕ) (now : ℕ) :
    (g.ctxClosed c fd now).OneTimer := by
  unfold ConnectMgr.ctxClosed
  dsimp only
  split
  · exact h
  · exact h.tportOnShutdown _ _ _ _

theorem OneTimer.connect (h : g.OneTimer) (c : ℕ) (addrs : List ℕ) (ok : Bool) (now : ℕ) :
    (g.connect c addrs ok now).1.OneTimer := by
  unfold ConnectMgr.connect
  dsimp only
  split
  · exact h.setCtx c (ConnectCtx.OneTimer.setState (h c) .shutdown false)
  · split
    · exact h
    · exact h.ctxClosed c none now

theorem OneTimer.retry (h : g.OneTimer) (c now : ℕ) : (g.retry c now).OneTimer := by
  unfold ConnectMgr.retry
  split
  · exact h.setCtx c (ConnectCtx.OneTimer.startTimer (h c))
  · exact (h.setCtx c (ConnectCtx.OneTimer.setState (h c) .idle true)).setFlags c _

theorem OneTimer.addrResolve (h : g.OneTimer) (c : ℕ) (addrs : Option (List ℕ)) (ok : Bool)
    (now : ℕ) : (g.addrResolve c addrs ok now).OneTimer := by
  unfold ConnectMgr.addrResolve
  split
  · exact h
  · extract_lets x g' r
    have hg' : g'.OneTimer := h.setCtx c (h c)
    have hr : r.1.OneTimer := by
      cases addrs with
      | none => exact hg'
      | some addrs => exact hg'.connect c addrs ok now
    split
    · exact hr
    · split
      · exact hr
      · exact hr.retry c now

theorem OneTimer.onConnect (h : g.OneTimer) (c fd : ℕ) : (g.onConnect c fd).OneTimer := by
  unfold ConnectMgr.onConnect
  have hflags := (h.setCtx c (ConnectCtx.OneTimer.setState (h c) .active true)).setFlags c
    fun t => { t with inProgress := false }
  unfold ConnectMgr.ctxConnected ConnectMgr.tportOnConnect
  dsimp only
  split <;> exact hflags

theorem OneTimer.onShutdown (h : g.OneTimer) (c : ℕ) (fd : Option ℕ) (was self : Bool)
    (now : ℕ) : (g.onShutdown c fd was self now).OneTimer := by
  have hclosed := h.ctxClosed c fd now
  have hmgr : (g.mgrOnShutdown c fd self now).OneTimer := by
    unfold ConnectMgr.mgrOnShutdown
    dsimp only
    split
    · exact hclosed.setCtx c (ConnectCtx.OneTimer.setState (hclosed c) .shutdown true)
    · split
      · exact hclosed.setFlags c _
      · exact hclosed
  unfold ConnectMgr.onShutdown
  extract_lets g' x g''
  have hg'' : g''.OneTimer := by
    show (ite _ _ _ : ConnectMgr).OneTimer
    split
    · exact hmgr.setCtx c (hmgr c)
    · exact hmgr
  split
  · exact hg''
  · split
    · exact hg''.retry c now
    · exact hg''

theorem OneTimer.timerCb (h : g.OneTimer) (c : ℕ) : (g.timerCb c).OneTimer := by
  unfold ConnectMgr.timerCb
  extract_lets x x'
  split
  · exact h
  · next hne =>
      -- the one timer that is pending is the one that fires
      have hx' : x'.OneTimer := by
        have hx : x.timers = if x.timerActive then 1 else 0 := h c
        have hle : x.timers ≤ 1 := by
          rw [hx]
          split <;> omega
        show x.timers - 1 = 0
        omega
      split
      · exact (h.setCtx c (hx'.setState .getAddress false)).setFlags c _
      · exact h.setCtx c hx'

theorem oneTimer_step (h : g.OneTimer) (e : Event) : (g.step e).OneTimer := by
  cases e with
  | addConnect c u timeout now => exact (h.setFlags c _).connectCtx c timeout now
  | dns c addrs ok now => exact h.addrResolve c addrs ok now
  | connected c fd => exact h.onConnect c fd
  | closed c fd was self now => exact h.onShutdown c fd was self now
  | timer c => exact h.timerCb c
  | accept r fd => exact h
  | meshUrl r u => exact h
  | acceptClosed r fd l now => exact h.tportOnShutdown r fd l now
  | closeSelf c =>
    exact (h.setCtx c (ConnectCtx.OneTimer.setState (h c) .shutdown true)).setFlags c _
  | shutdownTransport config =>
    intro c
    show (ite _ _ _ : ConnectCtx).OneTimer
    split
    · exact h c
    · exact h c
  | shutdownIpc c => exact h.setCtx c (ConnectCtx.OneTimer.setState (h c) .shutdown true)

theorem oneTimer_run (top : ConnTopology) (es : List Event) :
    (es.foldl step (start top)).OneTimer := by
  have hreach : Run.Reach step (fun _ _ => True) (start top) (es.foldl step (start top)) :=
    Run.Reach.start.foldl (Run.allOk_true _ _)
  exact hreach.invariant (fun _ => rfl)
    fun (s : ConnectMgr) e (h : s.OneTimer) _ => oneTimer_step h e

/-! ## Wake-ups -/

/-- Context `c` is in the slot of the live transport `a` of its mesh. -/
structure Waits (g : ConnectMgr) (c a : ℕ) : Prop where
  slot : (g.tport a).notifyCtx = some c
  state : (g.ctx c).state = .shutdown
  listen : g.top.isListen a = false
  mesh : g.top.isMesh (g.rteOf c)
  meshId : g.top.meshId a = g.top.meshId (g.rteOf c)

/-- Every context that waits is in a slot, of a transport that has a connection,
except that of `down` may just have gone. -/
structure Inv (down : Option ℕ) (g : ConnectMgr) : Prop where
  quit : g.quit = false
  waits : ∀ c a, (g.ctx c).waiting = some a → g.Waits c a
  up : ∀ c a, (g.ctx c).waiting = some a → (g.tport a).connected ≠ ∅ ∨ down = some a

variable {down : Option ℕ}

theorem Waits.setCtx {c a c' : ℕ} {x : ConnectCtx} (h : g.Waits c a)
    (hx : c = c' → x.state = .shutdown) : (g.setCtx c' x).Waits c a := by
  refine ⟨h.slot, ?_, h.listen, h.mesh, h.meshId⟩
  by_cases hc : c = c'
  · subst hc
    simpa [ConnectMgr.setCtx] using hx rfl
  · simpa [ConnectMgr.setCtx, hc] using h.state

/-- A context that keeps waiting stays in `CONN_SHUTDOWN`. -/
theorem Inv.setCtx (h : Inv down g) (c : ℕ) {x : ConnectCtx}
    (hx : x.waiting = none ∨ x.waiting = (g.ctx c).waiting ∧
      ((g.ctx c).state = .shutdown → x.state = .shutdown)) : Inv down (g.setCtx c x) := by
  have hold : ∀ c' a, ((g.setCtx c x).ctx c').waiting = some a →
      (g.ctx c').waiting = some a ∧ (c' = c → x.state = .shutdown) := by
    intro c' a hw
    by_cases hc : c' = c
    · subst hc
      have hw : x.waiting = some a := by simpa [ConnectMgr.setCtx] using hw
      rcases hx with hx | ⟨hx, hst⟩
      · rw [hx] at hw
        simp at hw
      · have hw' : (g.ctx c').waiting = some a := hx.symm.trans hw
        exact ⟨hw', fun _ => hst (h.waits c' a hw').state⟩
    · exact ⟨by simpa [ConnectMgr.setCtx, hc] using hw, fun heq => absurd heq hc⟩
  refine ⟨h.quit, fun c' a hw => ?_, fun c' a hw => h.up c' a (hold c' a hw).1⟩
  obtain ⟨hw', hst⟩ := hold c' a hw
  exact (h.waits c' a hw').setCtx hst

/-- A transport that keeps its slot and its connections. -/
theorem Inv.setTport (h : Inv down g) (r : ℕ) {t : ConnTport}
    (hn : t.notifyCtx = (g.tport r).notifyCtx)
    (hc : t.connected = ∅ → (g.tport r).connected = ∅ ∨ down = some r) :
    Inv down (g.setTport r t) := by
  refine ⟨h.quit, fun c a hw => ?_, fun c a hw => ?_⟩
  · obtain ⟨hslot, hst, hl, hm, hid⟩ := h.waits c a hw
    refine ⟨?_, hst, hl, hm, hid⟩
    by_cases ha : a = r
    · subst ha
      simpa [ConnectMgr.setTport, hn] using hslot
    · simpa [ConnectMgr.setTport, ha] using hslot
  · by_cases ha : a = r
    · subst ha
      rcases h.up c a hw with hup | hup
      · by_cases he : t.connected = ∅
        · exact Or.inr ((hc he).resolve_left hup)
        · exact Or.inl (by simpa [ConnectMgr.setTport] using he)
      · exact Or.inr hup
    · simpa [ConnectMgr.setTport, ha] using h.up c a hw

theorem Inv.setFlags (h : Inv down g) (c : ℕ) {f : ConnTport → ConnTport}
    (hf : ∀ t, (f t).notifyCtx = t.notifyCtx ∧ (f t).connected = t.connected) :
    Inv down (g.setFlags c f) := by
  unfold ConnectMgr.setFlags
  split
  · exact h
  · exact h.setTport _ (hf _).1 fun he => Or.inl ((hf _).2.symm.trans he)

@[simp] theorem waiting_setState (x : ConnectCtx) (s : ConnectState) (clear : Bool) :
    (x.setState s clear).waiting = if s = .shutdown then x.waiting else none := by
  unfold ConnectCtx.setState
  split <;> rfl

@[simp] theorem state_setState (x : ConnectCtx) (s : ConnectState) (clear : Bool) :
    (x.setState s clear).state = s := rfl

theorem Inv.connectCtx (h : Inv down g) (c timeout now : ℕ) :
    Inv down (g.connectCtx c timeout now) := by
  unfold ConnectMgr.connectCtx
  split
  · exact h
  · refine Inv.setFlags (h.setCtx c (Or.inl ?_)) c fun t => ⟨rfl, rfl⟩
    show ((g.ctx c).setState .getAddress true).waiting = none
    simp

@[simp] theorem ctx_setFlags (g : ConnectMgr) (c : ℕ) (f : ConnTport → ConnTport) :
    (g.setFlags c f).ctx = g.ctx := by
  unfold ConnectMgr.setFlags
  split <;> rfl

theorem ctx_connectCtx (hq : g.quit = false) (c timeout now : ℕ) :
    (g.connectCtx c timeout now).ctx = Function.update g.ctx c
      { (g.ctx c).setState .getAddress true with
        timeout := timeout, connectTries := 0, startMonoTime := now } := by
  unfold ConnectMgr.connectCtx
  rw [if_neg (by simp [hq])]
  exact ctx_setFlags _ _ _

/-- A connect by request or by a wake-up ends the wait. -/
theorem waiting_connectCtx (hq : g.quit = false) (c timeout now : ℕ) :
    ((g.connectCtx c timeout now).ctx c).waiting = none := by
  rw [ctx_connectCtx hq, Function.update_self]
  show ((g.ctx c).setState .getAddress true).waiting = none
  simp

/-- The wake-up: nobody waits for the transport any more. -/
theorem Inv.notify {r : ℕ} (h : Inv (some r) g) (now : ℕ) : Inv none (g.notify r now) := by
  have hclear : ∀ {g' : ConnectMgr}, Inv (some r) g' → (∀ c, (g'.ctx c).waiting ≠ some r) →
      Inv none (g'.setTport r { g'.tport r with notifyCtx := none }) := by
    intro g' h' hnone
    refine ⟨h'.quit, fun c a hw => ?_, fun c a hw => ?_⟩
    · have hne : a ≠ r := fun heq => hnone c (heq ▸ hw)
      obtain ⟨hslot, hst, hl, hm, hid⟩ := h'.waits c a hw
      exact ⟨by simpa [ConnectMgr.setTport, hne] using hslot, hst, hl, hm, hid⟩
    · have hne : a ≠ r := fun heq => hnone c (heq ▸ hw)
      rcases h'.up c a hw with hup | hup
      · exact Or.inl (by simpa [ConnectMgr.setTport, hne] using hup)
      · exact absurd (Option.some.inj hup).symm hne
  unfold ConnectMgr.notify
  split
  · next hslot =>
      refine ⟨h.quit, h.waits, fun c a hw => ?_⟩
      rcases h.up c a hw with hup | hup
      · exact Or.inl hup
      · obtain rfl := Option.some.inj hup
        have hs := (h.waits c r hw).slot
        rw [hslot] at hs
        simp at hs
  · next c hslot =>
      -- whoever waits for `r` is in its slot
      have honly : ∀ c', (g.ctx c').waiting = some r → c' = c := by
        intro c' hw
        exact (Option.some.inj (hslot.symm.trans (h.waits c' r hw).slot)).symm
      dsimp only
      split
      · next hst =>
          refine hclear (h.connectCtx c _ now) fun c' hw => ?_
          by_cases hc : c' = c
          · subst hc
            rw [reconnect, waiting_connectCtx h.quit] at hw
            simp at hw
          · rw [reconnect, ctx_connectCtx h.quit, Function.update_of_ne hc] at hw
            exact hc (honly c' hw)
      · next hst =>
          refine hclear h fun c' hw => ?_
          obtain rfl := honly c' hw
          exact hst (h.waits c' r hw).state

theorem Inv.tportOnShutdown (h : Inv none g) (r : ℕ) (fd : Option ℕ) (l : Bool) (now : ℕ) :
    Inv none (g.tportOnShutdown r fd l now) := by
  unfold ConnectMgr.tportOnShutdown
  extract_lets t
  split
  · next fd =>
      split
      · extract_lets t'
        split
        · refine Inv.notify ?_ now
          have hdown : Inv (some r) g := ⟨h.quit, h.waits, fun c a hw =>
            (h.up c a hw).imp_right fun hn => by simp at hn⟩
          exact hdown.setTport r rfl fun _ => Or.inr rfl
        · next hcond =>
            refine ⟨h.quit, fun c a hw => ?_, fun c a hw => ?_⟩
            · obtain ⟨hslot, hst, hl, hm, hid⟩ := h.waits c a hw
              refine ⟨?_, hst, hl, hm, hid⟩
              by_cases ha : a = r
              · subst ha
                simpa [ConnectMgr.setTport] using hslot
              · simpa [ConnectMgr.setTport, ha] using hslot
            · left
              by_cases ha : a = r
              · subst ha
                have hl := (h.waits c a hw).listen
                simp only [ConnectMgr.setTport, Function.update_self]
                intro he
                exact hcond ⟨he, by simp [hl]⟩
              · simpa [ConnectMgr.setTport, ha] using h.up c a hw
      · split
        · exact h.setTport r rfl Or.inl
        · exact h
  · split
    · exact h.setTport r rfl Or.inl
    · exact h

/-- The ipc transport is in no mesh: nobody waits for it. -/
theorem Inv.not_ipc (h : Inv down g) {c c' : ℕ} (hipc : g.top.isIpc c) :
    (g.ctx c').waiting ≠ some (g.rteOf c) := by
  intro hw
  obtain ⟨-, -, -, hm, hid⟩ := h.waits c' _ hw
  exact g.top.ipc_not_mesh c (g.rteOf c') hipc hm hid

theorem Inv.ctxClosed (h : Inv none g) (c : ℕ) (fd : Option ℕ) (now : ℕ) :
    Inv none (g.ctxClosed c fd now) := by
  unfold ConnectMgr.ctxClosed
  extract_lets t
  split
  · next hipc =>
      have hne : ∀ c' a, (g.ctx c').waiting = some a → a ≠ g.rteOf c :=
        fun c' a hw heq => h.not_ipc hipc (heq ▸ hw)
      refine ⟨h.quit, fun c' a hw => ?_, fun c' a hw => ?_⟩
      · obtain ⟨hslot, hst, hl, hm, hid⟩ := h.waits c' a hw
        exact ⟨by simpa [ConnectMgr.setTport, hne c' a hw] using hslot, hst, hl, hm, hid⟩
      · simpa [ConnectMgr.setTport, hne c' a hw] using h.up c' a hw
  · exact h.tportOnShutdown _ _ _ _

theorem meshPeer_of_findUrl {r a : ℕ} {hashes : List ℕ} (h : g.findUrl r hashes = some a) :
    g.meshPeer r a := by
  have hp := List.find?_some h
  simp only [Bool.decide_and, Bool.decide_eq_true, Bool.and_eq_true] at hp
  exact hp.1

theorem meshPeer_of_findAddr {r a size fuel : ℕ} {addrs : List ℕ}
    (h : g.findAddr r size fuel addrs = some a) : g.meshPeer r a := by
  induction fuel generalizing addrs with
  | zero => simp [findAddr] at h
  | succ fuel ih =>
    rw [findAddr] at h
    split at h
    · simp at h
    · rcases Option.or_eq_some_iff.mp h with h | ⟨-, h⟩
      · exact meshPeer_of_findUrl h
      · exact ih h

/-- The connection that stops `connect` is one of the same mesh. -/
theorem meshPeer_of_activeRte {c a : ℕ} {addrs : List ℕ} (h : g.activeRte c addrs = some a) :
    g.top.isMesh (g.rteOf c) ∧ g.top.meshId a = g.top.meshId (g.rteOf c) ∧
      g.top.isListen a = false := by
  unfold activeRte at h
  split at h
  · next hm =>
      have hp : g.meshPeer (g.rteOf c) a := by
        rcases Option.or_eq_some_iff.mp h with h | ⟨-, h⟩
        · exact meshPeer_of_findUrl h
        · exact meshPeer_of_findAddr h
      simp only [meshPeer, Bool.decide_and, Bool.and_eq_true, decide_eq_true_eq,
        Bool.not_eq_true'] at hp
      exact ⟨hm, hp.2.1, hp.2.2.2⟩
  · simp at h

theorem findAddr_setCtx (g : ConnectMgr) (c r size fuel : ℕ) (x : ConnectCtx)
    (addrs : List ℕ) :
    (g.setCtx c x).findAddr r size fuel addrs = g.findAddr r size fuel addrs := by
  induction fuel generalizing addrs with
  | zero => rfl
  | succ fuel ih =>
    rw [findAddr, findAddr, ih]
    rfl

/-- What stops `connect` is a matter of the transports. -/
theorem activeRte_setCtx (g : ConnectMgr) (c c' : ℕ) (x : ConnectCtx) (addrs : List ℕ) :
    (g.setCtx c x).activeRte c' addrs = g.activeRte c' addrs := by
  unfold activeRte findMesh
  rw [findAddr_setCtx]
  rfl

/-- The context takes the slot of `a`, and waits if `a` has a connection. -/
theorem Inv.takeSlot (h : Inv none g) {c a : ℕ} {x : ConnectCtx} (hx : x.state = .shutdown)
    (hxw : x.waiting = if (g.tport a).connected = ∅ then none else some a)
    (hm : g.top.isMesh (g.rteOf c)) (hid : g.top.meshId a = g.top.meshId (g.rteOf c))
    (hl : g.top.isListen a = false)
    (hfree : ∀ c' ∈ (g.tport a).notifyCtx, c' = c ∨ (g.ctx c').state ≠ .shutdown) :
    Inv none ((g.setCtx c x).setTport a { g.tport a with notifyCtx := some c }) := by
  set g' := (g.setCtx c x).setTport a { g.tport a with notifyCtx := some c } with hg'
  have hself : g'.ctx c = x := by simp [hg', ConnectMgr.setTport, ConnectMgr.setCtx]
  have hctx : ∀ {c'}, c' ≠ c → g'.ctx c' = g.ctx c' := by
    intro c' hc
    simp [hg', ConnectMgr.setTport, ConnectMgr.setCtx, hc]
  have hconn : ∀ a', (g'.tport a').connected = (g.tport a').connected := by
    intro a'
    by_cases ha : a' = a
    · subst ha
      simp [hg', ConnectMgr.setTport]
    · simp [hg', ConnectMgr.setTport, ConnectMgr.setCtx, ha]
  have hwait : ∀ {a'}, x.waiting = some a' → a' = a ∧ (g.tport a).connected ≠ ∅ := by
    intro a' hw
    rw [hxw] at hw
    split at hw
    · simp at hw
    · next hne => exact ⟨(Option.some.inj hw).symm, hne⟩
  refine ⟨h.quit, fun c' a' hw => ?_, fun c' a' hw => Or.inl ?_⟩
  · by_cases hc : c' = c
    · subst hc
      obtain ⟨rfl, -⟩ := hwait (hself ▸ hw)
      exact ⟨by simp [hg', ConnectMgr.setTport], hself ▸ hx, hl, hm, hid⟩
    · obtain ⟨hs, hst, hl', hm', hid'⟩ := h.waits c' a' (hctx hc ▸ hw)
      -- somebody else who waited for `a` would be in its slot
      have hne : a' ≠ a := by
        rintro rfl
        rcases hfree c' hs with heq | hne
        · exact hc heq
        · exact hne hst
      refine ⟨?_, (hctx hc).symm ▸ hst, hl', hm', hid'⟩
      simpa [hg', ConnectMgr.setTport, ConnectMgr.setCtx, hne] using hs
  · rw [hconn]
    by_cases hc : c' = c
    · subst hc
      obtain ⟨rfl, hne⟩ := hwait (hself ▸ hw)
      exact hne
    · exact (h.up c' a' (hctx hc ▸ hw)).resolve_right (by simp)

/-- `connect` that stops: the context takes the slot. -/
theorem Inv.connect (h : Inv none g) {c : ℕ} {addrs : List ℕ}
    (hfree : ∀ a ∈ g.activeRte c addrs, ∀ c' ∈ (g.tport a).notifyCtx,
      c' = c ∨ (g.ctx c').state ≠ .shutdown) (ok : Bool) (now : ℕ) :
    Inv none (g.connect c addrs ok now).1 := by
  unfold ConnectMgr.connect
  split
  · next a ha =>
      obtain ⟨hm, hid, hl⟩ := meshPeer_of_activeRte ha
      set g₁ := g.setTport (g.rteOf c)
        { g.tport (g.rteOf c) with inProgress := false, isShutdown := true } with hg₁
      have h₁ : Inv none g₁ := h.setTport _ rfl Or.inl
      have hslot : (g₁.tport a).notifyCtx = (g.tport a).notifyCtx := by
        by_cases heq : a = g.rteOf c
        · simp [hg₁, ConnectMgr.setTport, ← heq]
        · simp [hg₁, ConnectMgr.setTport, heq]
      refine h₁.takeSlot rfl rfl hm hid hl fun c' hc' => ?_
      exact hfree a ha c' (hslot.symm.trans hc')
  · split
    · exact h
    · exact h.ctxClosed c none now

/-- A context that leaves `CONN_SHUTDOWN`, or goes there by request. -/
theorem Inv.setState (h : Inv down g) (c : ℕ) (s : ConnectState) (clear : Bool) :
    Inv down (g.setCtx c ((g.ctx c).setState s clear)) := by
  apply h.setCtx c
  by_cases hs : s = .shutdown
  · subst hs
    exact Or.inr ⟨by simp, fun _ => rfl⟩
  · exact Or.inl (by simp [hs])

theorem Inv.retry (h : Inv none g) (c now : ℕ) : Inv none (g.retry c now) := by
  unfold ConnectMgr.retry
  split
  · apply h.setCtx c
    left
    show ((g.ctx c).setState .timer true).waiting = none
    simp
  · exact (h.setState c .idle true).setFlags c fun t => ⟨rfl, rfl⟩

theorem Inv.addrResolve (h : Inv none g) {c : ℕ} {addrs : Option (List ℕ)} {ok : Bool}
    {now : ℕ} (hfree : g.SlotFree (.dns c addrs ok now)) :
    Inv none (g.addrResolve c addrs ok now) := by
  unfold ConnectMgr.addrResolve
  split
  · exact h
  · extract_lets x g' r
    have hg' : Inv none g' := h.setCtx c (Or.inr ⟨rfl, id⟩)
    have hstate : ∀ c', (g'.ctx c').state = (g.ctx c').state := by
      intro c'
      by_cases hc : c' = c
      · subst hc
        simp [g', x, ConnectMgr.setCtx]
      · simp [g', ConnectMgr.setCtx, hc]
    have hr : Inv none r.1 := by
      cases addrs with
      | none => exact hg'
      | some addrs =>
        refine hg'.connect (fun a ha c' hc' => ?_) ok now
        rw [hstate c']
        exact hfree a (activeRte_setCtx g c c _ addrs ▸ ha) c' hc'
    split
    · exact hr
    · split
      · exact hr
      · exact hr.retry c now

theorem Inv.tportOnConnect (h : Inv none g) (r fd : ℕ) : Inv none (g.tportOnConnect r fd) := by
  refine h.setTport r rfl fun he => ?_
  exact absurd he (Finset.insert_ne_empty fd _)

theorem Inv.onConnect (h : Inv none g) (c fd : ℕ) : Inv none (g.onConnect c fd) := by
  unfold ConnectMgr.onConnect
  have hflags := (h.setState c .active true).setFlags c
    (f := fun t => { t with inProgress := false }) fun t => ⟨rfl, rfl⟩
  unfold ConnectMgr.ctxConnected
  dsimp only
  split
  · refine hflags.setTport _ rfl fun he => ?_
    exact absurd he (Finset.insert_ne_empty fd _)
  · exact hflags.tportOnConnect _ fd

theorem Inv.onShutdown (h : Inv none g) (c : ℕ) (fd : Option ℕ) (was self : Bool) (now : ℕ) :
    Inv none (g.onShutdown c fd was self now) := by
  have hclosed := h.ctxClosed c fd now
  have hmgr : Inv none (g.mgrOnShutdown c fd self now) := by
    unfold ConnectMgr.mgrOnShutdown
    dsimp only
    split
    · exact hclosed.setState c .shutdown true
    · split
      · exact hclosed.setFlags c fun t => ⟨rfl, rfl⟩
      · exact hclosed
  unfold ConnectMgr.onShutdown
  extract_lets g' x g''
  have hg'' : Inv none g'' := by
    show Inv none (ite _ _ _ : ConnectMgr)
    split
    · exact hmgr.setCtx c (Or.inr ⟨rfl, id⟩)
    · exact hmgr
  split
  · exact hg''
  · split
    · exact hg''.retry c now
    · exact hg''

theorem Inv.timerCb (h : Inv none g) (c : ℕ) : Inv none (g.timerCb c) := by
  unfold ConnectMgr.timerCb
  extract_lets x x'
  split
  · exact h
  · split
    · refine (h.setCtx c (Or.inl ?_)).setFlags c fun t => ⟨rfl, rfl⟩
      simp
    · exact h.setCtx c (Or.inr ⟨rfl, id⟩)

/-- A shutdown by request takes every transport of a mesh, and with it the contexts
that wait for one of them. -/
theorem Inv.shutdownTransport (h : Inv none g) (config : ℕ) :
    Inv none (g.shutdownTransport config) := by
  have hkeep : ∀ c a, ((g.shutdownTransport config).ctx c).waiting = some a →
      (g.ctx c).waiting = some a ∧ g.top.config a ≠ config ∧
        (g.shutdownTransport config).ctx c = g.ctx c := by
    intro c a hw
    by_cases hc : !g.top.isIpc c ∧ g.top.config (g.top.eventId c) = config
    · have hctx : ((g.shutdownTransport config).ctx c).waiting = none :=
        congrArg ConnectCtx.waiting (if_pos hc)
      rw [hctx] at hw
      simp at hw
    · have hctx : (g.shutdownTransport config).ctx c = g.ctx c := if_neg hc
      rw [hctx] at hw
      obtain ⟨-, -, -, hm, hid⟩ := h.waits c a hw
      have hipc : g.top.isIpc c = false := by
        rw [← Bool.not_eq_true]
        intro hipc
        exact g.top.ipc_not_mesh c (g.rteOf c) hipc hm rfl
      refine ⟨hw, fun hconf => hc ⟨by simp [hipc], ?_⟩, hctx⟩
      exact (g.top.mesh_config _ _ hm hid).symm.trans hconf
  refine ⟨h.quit, fun c a hw => ?_, fun c a hw => ?_⟩
  · obtain ⟨hw', hconf, hctx⟩ := hkeep c a hw
    obtain ⟨hs, hst, hl, hm, hid⟩ := h.waits c a hw'
    exact ⟨by simpa [ConnectMgr.shutdownTransport, hconf] using hs, hctx.symm ▸ hst, hl, hm, hid⟩
  · obtain ⟨hw', hconf, -⟩ := hkeep c a hw
    simpa [ConnectMgr.shutdownTransport, hconf] using h.up c a hw'

theorem inv_step (h : Inv none g) {e : Event} (hfree : g.SlotFree e) : Inv none (g.step e) := by
  cases e with
  | addConnect c u timeout now =>
    refine Inv.connectCtx (h.setFlags c ?_) c timeout now
    exact fun t => ⟨rfl, rfl⟩
  | dns c addrs ok now => exact h.addrResolve hfree
  | connected c fd => exact h.onConnect c fd
  | closed c fd was self now => exact h.onShutdown c fd was self now
  | timer c => exact h.timerCb c
  | accept r fd => exact h.tportOnConnect r fd
  | meshUrl r u => exact h.setTport r rfl Or.inl
  | acceptClosed r fd l now => exact h.tportOnShutdown r fd l now
  | closeSelf c =>
    show Inv none (g.closeSelfConnect c)
    unfold closeSelfConnect
    exact (h.setState c .shutdown true).setFlags c fun t => ⟨rfl, rfl⟩
  | shutdownTransport config => exact h.shutdownTransport config
  | shutdownIpc c => exact h.setState c .shutdown true

theorem inv_start (top : ConnTopology) : Inv none (start top) :=
  ⟨rfl, fun c a hw => by simp [start, ConnectCtx.new] at hw,
    fun c a hw => by simp [start, ConnectCtx.new] at hw⟩

/-- Over any run the timers are single, and if no stopped context is put out of a
slot by another, all are woken. -/
theorem oneTimer_and_woken (top : ConnTopology) (es : List Event) :
    (es.foldl step (start top)).OneTimer ∧
      (Run.AllOk step SlotFree (start top) es → (es.foldl step (start top)).Woken) := by
  refine ⟨oneTimer_run top es, fun hok => ?_⟩
  have hreach : Run.Reach step SlotFree (start top) (es.foldl step (start top)) :=
    Run.Reach.start.foldl hok
  have hinv : Inv none (es.foldl step (start top)) :=
    hreach.invariant (inv_start top) fun (s : ConnectMgr) e (h : Inv none s) he => inv_step h he
  intro c a hw
  exact (hinv.up c a hw).resolve_right (by simp)

/-- One mesh: a listener, an accepted connection, and two outgoing ones. -/
def meshTopology : ConnTopology where
  tportCount := 4
  config _ := 0
  meshId _ := some 0
  isMesh _ := true
  isListen r := r = 0
  eventId c := c
  isIpc _ := false
  mesh_config _ _ _ _ := rfl
  ipc_not_mesh _ _ h := by simp at h

/-- A context stops for an accepted connection and is woken when it closes. -/
def soleWaiter : List Event :=
  [.accept 1 7, .addConnect 2 100 15 0, .meshUrl 1 100, .dns 2 (some [300]) true 1,
    .acceptClosed 1 (some 7) false 3]

theorem oneTimer_and_woken_soleWaiter :
    (((soleWaiter.take 4).foldl step (start meshTopology)).ctx 2).waiting = some 1 ∧
      (soleWaiter.foldl step (start meshTopology)).Woken := by
  refine ⟨by decide, (oneTimer_and_woken meshTopology soleWaiter).2 ?_⟩
  refine ⟨trivial, trivial, trivial, fun a ha c' hc' => ?_, trivial, trivial⟩
  -- the slot of the accepted connection is empty
  have ha' : ((soleWaiter.take 3).foldl step (start meshTopology)).activeRte 2 [300] = some 1 :=
    by decide
  obtain rfl : 1 = a := Option.some.inj (ha'.symm.trans ha)
  have hslot : (((soleWaiter.take 3).foldl step (start meshTopology)).tport 1).notifyCtx =
      none := by decide
  exact absurd (hslot.symm.trans hc') (by simp)

/-- The url of a peer is listed twice, and the peer connects to this node before the name
resolves: both contexts stop for that connection, the second takes the slot, and when it
closes the first stays shut down. -/
def sharedSlot : List Event :=
  [.accept 1 7, .addConnect 2 100 15 0, .addConnect 3 100 15 0, .meshUrl 1 100,
    .dns 2 (some [300]) true 1, .dns 3 (some [300]) true 2, .acceptClosed 1 (some 7) false 3]

theorem sharedSlot_not_woken : ¬ (sharedSlot.foldl step (start meshTopology)).Woken := by
  intro h
  exact h 2 1 (by decide) (by decide)

end ConnectMgr

end Raims
