import Mathlib.Data.List.DropRight
import Raims.Graph.AdjCost

/-!
# Graphs from text (`AdjGraph::load_graph`, `link_users`)

A graph is described by lines of words. A word in the first column begins a statement:
`start` and `node` name users, and `tcp_`, `link_`, `mesh_`, `cube_` and `pgm_` followed by
the name of a transport connect users. The other words of the line and those of the lines
after it are its users, and what stands behind a word that begins with a colon is the cost.
The users of a statement are collected, and connected when another statement begins or the
text ends.

Text is a list of bytes. `char` is signed, so a byte with the high bit is below a blank.
What is done with the graph is a list of the calls of `add_user` and `add_conn`.
-/

namespace Raims

namespace LoadGraph

def newline : UInt8 := 0x0a

/-- `c <= ' '` -/
def isBlank (c : UInt8) : Bool := c ≤ 0x20 || 0x80 ≤ c

/-! ## Lines and words -/

/-- `split_args`: at most 100 words, up to the end of the string. -/
def splitArgs (buf : Text) : List Text :=
  (((buf.takeWhile (· ≠ 0)).splitOnP isBlank).filter (· ≠ [])).take 100

/-- `sizeof( buf ) - 1` -/
def maxLine : ℕ := 8 * 1024 - 1

/-- The words of a line and whether the first of them is in the first column; none for a
line that is skipped. -/
def lineArgs (line : Text) : Option (Bool × List Text) :=
  let buf := (line.take maxLine).rdropWhile isBlank
  if buf = [] ∨ buf.head? = some 0x23 then none
  else if splitArgs buf = [] then none
  else some (!(buf.head?.any isBlank), splitArgs buf)

/-! ## Statements -/

/-- `stmt`, in the order of the source's numbers. -/
inductive Stmt
  | none | start | node | link | mesh | cube | pgm
deriving DecidableEq, Repr

/-- The statements that connect users, `stmt >= G_LINK`. -/
def Stmt.links : Stmt → Bool
  | .link | .mesh | .cube | .pgm => true
  | _ => false

/-- What the first word of a statement says. -/
structure Header where
  stmt : Stmt
  type : Text
  tport : Text
deriving DecidableEq

/-- A prefix with something behind it. -/
def isKey (key : String) (word : Text) : Bool :=
  key.length < word.length && (text key).isPrefixOf word

def header (word : Text) : Option Header :=
  if isKey "tcp_" word || isKey "link_" word then
    some ⟨.link, text "tcp", if word[3]? = some 0x5f then word.drop 4 else word.drop 5⟩
  else if isKey "mesh_" word then some ⟨.mesh, text "mesh", word.drop 5⟩
  else if isKey "cube_" word then some ⟨.cube, text "tcp", word.drop 5⟩
  else if isKey "pgm_" word then some ⟨.pgm, text "pgm", word.drop 4⟩
  else none

/-! ## Connections -/

structure Conn where
  a : Text
  b : Text
  tport : Text
  type : Text
  cost : AdjCost
deriving DecidableEq

/-- A call of `add_user` or `add_conn`. -/
inductive GraphOp
  | addUser (user : Text)
  | addConn (conn : Conn)
deriving DecidableEq

/-- The pairs `( i, i ^ j )` of the cube: `j` doubles as long as it is below `count`. -/
def cubeSteps (count : ℕ) : List ℕ := ((List.range count).map (2 ^ ·)).filter (· < count)

/-- The connections of the users on one transport, in the order they are added. -/
def round (stmt : Stmt) (users : List Text) (tport type : Text) (cost : AdjCost) : List Conn :=
  match stmt with
  | .link => users.tail.map fun b => ⟨users.headD [], b, tport, type, cost⟩
  | .cube =>
    (List.range users.length).flatMap fun i =>
      (cubeSteps users.length).filterMap fun j =>
        (users[i ^^^ j]?).map fun b =>
          ⟨users.getD i [], b, tport ++ text "_v" ++ AdjCost.decimal (i + 1), type, cost⟩
  | _ =>
    (List.range users.length).flatMap fun i =>
      (users.drop (i + 1)).map fun b => ⟨users.getD i [], b, tport, type, cost⟩

/-- The costs of the rounds for `COST_X`: the number of the path counts up to the count. -/
def rounds : ℕ → AdjCost → List AdjCost
  | 0, _ => []
  | fuel + 1, cost =>
    let next := { cost with path := ⟨cost.path.num + 1, cost.path.count⟩ }
    cost :: if next.path.num < next.path.count then rounds fuel next else []

/-- `link_users`. The number of the path has 16 bits, so there are 2^16 rounds at most. -/
def linkUsers (stmt : Stmt) (users : List Text) (tport type : Text) (cost : AdjCost)
    (cstatus : AdjCost.ParseStatus) : List Conn :=
  if 1 < users.length then
    if cstatus = .costX then
      (rounds (2 ^ 16) cost).flatMap fun cost =>
        round stmt users (tport ++ text "_" ++ AdjCost.decimal (cost.path.num.toNat + 1)) type cost
    else round stmt users tport type cost
  else []

/-! ## Names of connections -/

/-- `sizeof( tmp )` of `link_users` -/
def nameSize : ℕ := 256

/-- The names of the connections of a cube. -/
def cubeNames (stmt : Stmt) (count : ℕ) (tport : Text) : List Text :=
  if stmt = .cube then
    (List.range count).map fun i => tport ++ text "_v" ++ AdjCost.decimal (i + 1)
  else []

/-- The names that `link_users` puts into `tmp`, with a zero behind each. -/
def linkNames (stmt : Stmt) (users : List Text) (tport : Text) (cost : AdjCost)
    (cstatus : AdjCost.ParseStatus) : List Text :=
  if 1 < users.length then
    if cstatus = .costX then
      (rounds (2 ^ 16) cost).flatMap fun cost =>
        let base := tport ++ text "_" ++ AdjCost.decimal (cost.path.num.toNat + 1)
        base :: cubeNames stmt users.length base
    else cubeNames stmt users.length tport
  else []

/-! ## The loop -/

/-- The locals of `load_graph`, and the calls made. -/
structure LoadState where
  stmt : Stmt
  tport : Text
  type : Text
  users : List Text
  cost : AdjCost
  cstatus : AdjCost.ParseStatus
  start : Text
  out : List GraphOp

def LoadState.init : LoadState where
  stmt := .none
  tport := []
  type := []
  users := []
  cost := .const COST_DEFAULT
  cstatus := .ok
  start := []
  out := []

namespace LoadState

variable (s : LoadState)

/-- The connections of the users collected. -/
def pending : List Conn := linkUsers s.stmt s.users s.tport s.type s.cost s.cstatus

def flush : LoadState := { s with users := [], out := s.out ++ s.pending.map .addConn }

/-- The test before `link_users`: for `cube_` it is `stmt >= G_CUBE`. -/
def flushes (h : Header) : Bool :=
  if h.stmt = .cube then s.stmt = .cube || s.stmt = .pgm else s.stmt.links

/-- A statement begins. -/
def begin (h : Header) : LoadState :=
  { (if s.flushes h then s.flush else s) with
    stmt := h.stmt
    tport := h.tport
    type := h.type
    cost := .const COST_DEFAULT
    cstatus := .ok }

def addUsers (users : List Text) : LoadState := { s with out := s.out ++ users.map .addUser }

end LoadState

def isColon (word : Text) : Bool := word.head? = some 0x3a

/-- The words before the cost. -/
def usersOf (args : List Text) : List Text := args.takeWhile (!isColon ·)

/-- The cost behind the colon, when there is one. -/
def costOf (args : List Text) : Option (AdjCost × AdjCost.ParseStatus) :=
  match args.dropWhile (!isColon ·) with
  | [] => none
  | _ :: cost => some (AdjCost.parseArgs cost)

namespace LoadState

/-- The words of a statement that connects users; others are an unknown statement. -/
def addArgs (s : LoadState) (args : List Text) : LoadState :=
  let s := (costOf args).elim s fun c => { s with cost := c.1, cstatus := c.2 }
  if s.stmt.links then { s with users := s.users ++ usersOf args } else s

/-- The rest of the line of a word in the first column. -/
def word (s : LoadState) (word : Text) (args : List Text) : LoadState :=
  if word = text "start" then
    { s with stmt := .start, start := args.head?.elim s.start (·.take 79) }
  else if word = text "node" then { s.addUsers args with stmt := .node }
  else
    match header word with
    | some h => (s.begin h).addArgs args
    | none => s.addArgs (word :: args)

def loadArgs (s : LoadState) : Bool × List Text → LoadState
  | (_, []) => s
  | (true, w :: args) => s.word w args
  | (false, args) => if s.stmt = .node then s.addUsers args else s.addArgs args

def loadLine (s : LoadState) (line : Text) : LoadState := (lineArgs line).elim s s.loadArgs

/-- After the last line. -/
def finish (s : LoadState) : List GraphOp :=
  (if s.stmt.links then s.flush else s).out ++
    if s.start = [] then [] else [.addUser s.start]

end LoadState

/-- `load_graph`. The empty piece behind the last newline is skipped like an empty line. -/
def loadGraph (p : Text) : List GraphOp :=
  ((p.splitOnP (· == newline)).foldl LoadState.loadLine .init).finish

/-- The connections among the calls. -/
def GraphOp.conn? : GraphOp → Option Conn
  | addUser _ => none
  | addConn c => some c

def connsOf (p : Text) : List Conn := (loadGraph p).filterMap GraphOp.conn?

namespace LoadState

variable (s : LoadState)

/-- The names of the connections of the users collected. -/
def pendingNames : List Text := linkNames s.stmt s.users s.tport s.cost s.cstatus

/-- The names that are built before the first word of a line is taken. -/
def namesBefore (line : Text) : List Text :=
  match lineArgs line with
  | some (true, w :: _) => (header w).elim [] fun h => if s.flushes h then s.pendingNames else []
  | _ => []

/-- The names that are built from some line on. -/
def namesFrom : LoadState → List Text → List Text
  | s, [] => if s.stmt.links then s.pendingNames else []
  | s, line :: lines => s.namesBefore line ++ (s.loadLine line).namesFrom lines

end LoadState

/-- All calls of `link_users` stay inside of `tmp`. -/
def Inside (p : Text) : Prop :=
  ∀ name ∈ LoadState.namesFrom .init (p.splitOnP (· == newline)), name.length < nameSize

end LoadGraph

end Raims
