import Raims.Lib.Run
import Mathlib.Algebra.Ring.Nat
import Mathlib.Data.Finset.Card
import Mathlib.Logic.Function.Basic

/-!
# The connection manager (`conn_mgr.cpp`)

A `ConnectCtx` keeps one outgoing connection up: it resolves the address,
connects, and starts over after a while when the connection fails. The connect of
a mesh transport stops if the peer has connected to this node in the meantime; the
transport with that connection then has the context in its `notify_ctx`, and wakes
it when its last connection is gone.

The resolver may call back before `get_address` returns, which it is called last
for in each function: the result is an event of its own here.
-/

namespace Raims

inductive ConnectState where
  | idle | getAddress | active | timer | shutdown
deriving DecidableEq, Repr

/-- `ConnectCtx`. `timers` is the number of timers with its id in the poll's queue;
`waiting` is history: the transport whose connection made `connect` stop. -/
structure ConnectCtx where
  state : ConnectState
  timerActive : Bool
  timers : ℕ
  connectTries : ℕ
  timeout : ℕ
  startMonoTime : ℕ
  waiting : Option ℕ

namespace ConnectCtx

def new : ConnectCtx := ⟨.shutdown, false, 0, 0, 15, 0, none⟩

variable (c : ConnectCtx)

/-- `set_state`. A context that leaves `CONN_SHUTDOWN` does not wait any more. -/
def setState (newState : ConnectState) (clearTimer : Bool) : ConnectCtx :=
  let c :=
    if clearTimer && c.timerActive then { c with timers := c.timers - 1, timerActive := false }
    else c
  { c with state := newState, waiting := if newState = .shutdown then c.waiting else none }

def expired (curTime : ℕ) : Bool :=
  c.timeout ≠ 0 ∧ (c.startMonoTime + c.timeout * 1000000000) % 2 ^ 64 < curTime

/-- `set_state( CONN_TIMER )` and the timer. -/
def startTimer : ConnectCtx :=
  let c := c.setState .timer true
  { c with timers := c.timers + 1, timerActive := true }

end ConnectCtx

/-- What of a `TransportRoute` the manager looks at; `connect_count` is the number
of sockets in `connected`. -/
structure ConnTport where
  isShutdown : Bool
  inProgress : Bool
  connected : Finset ℕ
  meshUrlHash : ℕ
  notifyCtx : Option ℕ

def ConnTport.new : ConnTport := ⟨true, false, ∅, 0, none⟩

/-- What does not change: the configuration of each transport, and the transport
of each context. The transports of a mesh are those of its listener's
configuration; the contexts of external listeners belong to the ipc transport. -/
structure ConnTopology where
  tportCount : ℕ
  config : ℕ → ℕ
  meshId : ℕ → Option ℕ
  isMesh : ℕ → Bool
  isListen : ℕ → Bool
  eventId : ℕ → ℕ
  isIpc : ℕ → Bool
  mesh_config : ∀ i j, isMesh i → meshId j = meshId i → config j = config i
  ipc_not_mesh : ∀ c i, isIpc c → isMesh i → meshId (eventId c) ≠ meshId i

structure ConnectMgr where
  top : ConnTopology
  /-- `poll.quit` -/
  quit : Bool
  ctx : ℕ → ConnectCtx
  tport : ℕ → ConnTport

namespace ConnectMgr

def start (top : ConnTopology) : ConnectMgr :=
  ⟨top, false, fun _ => .new, fun _ => .new⟩

variable (g : ConnectMgr)

def setCtx (c : ℕ) (x : ConnectCtx) : ConnectMgr :=
  { g with ctx := Function.update g.ctx c x }

def setTport (r : ℕ) (x : ConnTport) : ConnectMgr :=
  { g with tport := Function.update g.tport r x }

/-- The transport of a context. -/
def rteOf (c : ℕ) : ℕ := g.top.eventId c

/-- Flags of the transport of `c`, which are those of its `ipc_rte` if it has one. -/
def setFlags (c : ℕ) (f : ConnTport → ConnTport) : ConnectMgr :=
  if g.top.isIpc c then g else g.setTport (g.rteOf c) (f (g.tport (g.rteOf c)))

/-- `on_dns`. -/
def onDns (c : ℕ) : ConnectMgr := g.setFlags c fun t => { t with inProgress := true }

/-- `ConnectCtx::connect`. -/
def connectCtx (c timeout now : ℕ) : ConnectMgr :=
  if g.quit then g
  else
    let x := (g.ctx c).setState .getAddress true
    (g.setCtx c { x with timeout := timeout, connectTries := 0, startMonoTime := now }).onDns c

/-- `ConnectCtx::reconnect`. -/
def reconnect (c now : ℕ) : ConnectMgr := g.connectCtx c (g.ctx c).timeout now

/-- The wake-up in `TransportRoute::on_shutdown`. -/
def notify (r now : ℕ) : ConnectMgr :=
  match (g.tport r).notifyCtx with
  | none => g
  | some c =>
    let g := if (g.ctx c).state = .shutdown then g.reconnect c now else g
    g.setTport r { g.tport r with notifyCtx := none }

/-- `TransportRoute::on_shutdown` of a transport that is not the ipc one; no `fd` for
a socket that never was connected. -/
def tportOnShutdown (r : ℕ) (fd : Option ℕ) (isListener : Bool) (now : ℕ) : ConnectMgr :=
  let t := g.tport r
  match fd with
  | some fd =>
    if fd ∈ t.connected then
      let t := { t with connected := t.connected.erase fd }
      if t.connected = ∅ ∧ !g.top.isListen r then
        (g.setTport r { t with isShutdown := true }).notify r now
      else g.setTport r t
    else if isListener then g.setTport r { t with isShutdown := true }
    else g
  | none => if t.connected = ∅ then g.setTport r { t with isShutdown := true } else g

/-- `TransportRoute::on_connect`, after an accepted socket got its transport. -/
def tportOnConnect (r fd : ℕ) : ConnectMgr :=
  let t := g.tport r
  g.setTport r { t with isShutdown := false, connected := insert fd t.connected }

/-- `on_connect` of the transport of a context; the ipc transport only counts. -/
def ctxConnected (c fd : ℕ) : ConnectMgr :=
  let t := g.tport (g.rteOf c)
  if g.top.isIpc c then g.setTport (g.rteOf c) { t with connected := insert fd t.connected }
  else g.tportOnConnect (g.rteOf c) fd

/-- `on_shutdown` of the transport of a context. -/
def ctxClosed (c : ℕ) (fd : Option ℕ) (now : ℕ) : ConnectMgr :=
  let t := g.tport (g.rteOf c)
  if g.top.isIpc c then
    g.setTport (g.rteOf c) { t with connected := fd.elim t.connected t.connected.erase }
  else g.tportOnShutdown (g.rteOf c) fd false now

/-! ## `find_mesh` -/

/-- Another live transport of the mesh of `r`. -/
def meshPeer (r i : ℕ) : Bool :=
  i ≠ r ∧ g.top.meshId i = g.top.meshId r ∧ !(g.tport i).isShutdown ∧ !g.top.isListen i

def findUrl (r : ℕ) (hashes : List ℕ) : Option ℕ :=
  (List.range g.top.tportCount).find? fun i =>
    g.meshPeer r i ∧ (g.tport i).meshUrlHash ∈ hashes

/-- The addresses are looked at in the order resolved, `size` at a time. -/
def findAddr (r size : ℕ) : ℕ → List ℕ → Option ℕ
  | 0, _ => none
  | fuel + 1, addrs =>
    if addrs = [] then none
    else (g.findUrl r (addrs.take size)).or (findAddr r size fuel (addrs.drop size))

/-- `find_mesh`: a transport with the url of `r`, or with one of the addresses,
given by the hashes of their urls. -/
def findMesh (r : ℕ) (addrs : List ℕ) : Option ℕ :=
  (g.findUrl r [(g.tport r).meshUrlHash]).or (g.findAddr r 128 addrs.length addrs)

/-! ## The callbacks -/

/-- The connection that makes `connect` stop. -/
def activeRte (c : ℕ) (addrs : List ℕ) : Option ℕ :=
  if g.top.isMesh (g.rteOf c) then g.findMesh (g.rteOf c) addrs else none

/-- `ConnectMgr::connect`, and what it returns; `ok` is the result of the socket's
connect. -/
def connect (c : ℕ) (addrs : List ℕ) (ok : Bool) (now : ℕ) : ConnectMgr × Bool :=
  match g.activeRte c addrs with
  | some a =>
    let r := g.rteOf c
    let g := g.setTport r { g.tport r with inProgress := false, isShutdown := true }
    let x := (g.ctx c).setState .shutdown false
    let waiting := if (g.tport a).connected = ∅ then none else some a
    let g := g.setCtx c { x with waiting := waiting }
    (g.setTport a { g.tport a with notifyCtx := some c }, true)
  | none =>
    if ok then (g, true)
    else (g.ctxClosed c none now, false)

/-- The end of a try: a timer for the next one, or no more. -/
def retry (c now : ℕ) : ConnectMgr :=
  if !(g.ctx c).expired now ∧ !g.quit then g.setCtx c (g.ctx c).startTimer
  else
    (g.setCtx c ((g.ctx c).setState .idle true)).setFlags c fun t =>
      { t with inProgress := false }

/-- `addr_resolve_cb`; no addresses if the name was not found. -/
def addrResolve (c : ℕ) (addrs : Option (List ℕ)) (ok : Bool) (now : ℕ) : ConnectMgr :=
  if (g.ctx c).state = .shutdown ∨ g.quit then g
  else
    let x := g.ctx c
    let g := g.setCtx c { x with connectTries := (x.connectTries + 1) % 2 ^ 32 }
    let r := addrs.elim (g, false) fun addrs => g.connect c addrs ok now
    if r.2 then r.1
    else if (r.1.ctx c).state = .shutdown then r.1
    else r.1.retry c now

/-- `ConnectCtx::on_connect`. -/
def onConnect (c fd : ℕ) : ConnectMgr :=
  let g := g.setCtx c ((g.ctx c).setState .active true)
  let g := g.setFlags c fun t => { t with inProgress := false }
  g.ctxConnected c fd

/-- `ConnectMgr::on_shutdown`; `self` says that the node has connected to itself. -/
def mgrOnShutdown (c : ℕ) (fd : Option ℕ) (self : Bool) (now : ℕ) : ConnectMgr :=
  let g := g.ctxClosed c fd now
  if self then g.setCtx c ((g.ctx c).setState .shutdown true)
  else if (g.ctx c).state ≠ .shutdown then
    g.setFlags c fun t => { t with inProgress := true, isShutdown := false }
  else g

/-- `ConnectCtx::on_shutdown`. -/
def onShutdown (c : ℕ) (fd : Option ℕ) (wasConnected self : Bool) (now : ℕ) : ConnectMgr :=
  let g := g.mgrOnShutdown c fd self now
  let x := g.ctx c
  let g :=
    if wasConnected ∨ x.state = .shutdown then
      g.setCtx c { x with startMonoTime := now, connectTries := 0 }
    else g
  if (g.ctx c).state = .shutdown then g
  else if (!(g.ctx c).expired now ∧ !g.quit) ∨ (g.ctx c).state ≠ .idle then g.retry c now
  else g

/-- A timer of the poll is due: `timer_cb` returns false, so it is gone. -/
def timerCb (c : ℕ) : ConnectMgr :=
  let x := g.ctx c
  if x.timers = 0 then g
  else
    let x := { x with timers := x.timers - 1, timerActive := false }
    if x.state ≠ .shutdown ∧ !g.quit then
      (g.setCtx c (x.setState .getAddress false)).onDns c
    else g.setCtx c x

/-! ## Requests -/

/-- `TransportRoute::shutdown` of every transport with the configuration. -/
def shutdownTransport (config : ℕ) : ConnectMgr :=
  { g with
    ctx := fun c =>
      if !g.top.isIpc c ∧ g.top.config (g.top.eventId c) = config then
        { g.ctx c with state := .shutdown, waiting := none }
      else g.ctx c
    tport := fun r =>
      if g.top.config r = config then
        { g.tport r with notifyCtx := none, inProgress := false, isShutdown := true }
      else g.tport r }

/-- `close_self_connect`. -/
def closeSelfConnect (c : ℕ) : ConnectMgr :=
  (g.setCtx c ((g.ctx c).setState .shutdown true)).setFlags c fun t =>
    { t with inProgress := false, isShutdown := true }

/-- A connect by request, of a transport that is new or started again. -/
def addConnect (c meshUrlHash timeout now : ℕ) : ConnectMgr :=
  (g.setFlags c fun t => { t with isShutdown := false, meshUrlHash := meshUrlHash }).connectCtx
    c timeout now

/-! ## Runs -/

inductive Event where
  | addConnect (c meshUrlHash timeout now : ℕ)
  | dns (c : ℕ) (addrs : Option (List ℕ)) (ok : Bool) (now : ℕ)
  | connected (c fd : ℕ)
  | closed (c : ℕ) (fd : Option ℕ) (wasConnected self : Bool) (now : ℕ)
  | timer (c : ℕ)
  /-- a socket that was accepted, for transport `r` -/
  | accept (r fd : ℕ)
  /-- the url of an accepted peer, known once it is authenticated -/
  | meshUrl (r meshUrlHash : ℕ)
  | acceptClosed (r : ℕ) (fd : Option ℕ) (isListener : Bool) (now : ℕ)
  | closeSelf (c : ℕ)
  | shutdownTransport (config : ℕ)
  | shutdownIpc (c : ℕ)

def step : Event → ConnectMgr
  | .addConnect c h timeout now => g.addConnect c h timeout now
  | .dns c addrs ok now => g.addrResolve c addrs ok now
  | .connected c fd => g.onConnect c fd
  | .closed c fd was self now => g.onShutdown c fd was self now
  | .timer c => g.timerCb c
  | .accept r fd => g.tportOnConnect r fd
  | .meshUrl r h => g.setTport r { g.tport r with meshUrlHash := h }
  | .acceptClosed r fd isListener now => g.tportOnShutdown r fd isListener now
  | .closeSelf c => g.closeSelfConnect c
  | .shutdownTransport config => g.shutdownTransport config
  | .shutdownIpc c => g.setCtx c ((g.ctx c).setState .shutdown true)

/-- Each context has at most one timer, and one exactly while `timer_active`. -/
def OneTimer : Prop := ∀ c, (g.ctx c).timers = if (g.ctx c).timerActive then 1 else 0

/-- No context waits for a transport whose connections are gone. -/
def Woken : Prop := ∀ c a, (g.ctx c).waiting = some a → (g.tport a).connected ≠ ∅

/-- A connect that stops finds no other stopped context in the slot it takes. -/
def SlotFree : Event → Prop
  | .dns c (some addrs) _ _ =>
    ∀ a ∈ g.activeRte c addrs, ∀ c' ∈ (g.tport a).notifyCtx,
      c' = c ∨ (g.ctx c').state ≠ .shutdown
  | _ => True

end ConnectMgr

end Raims
