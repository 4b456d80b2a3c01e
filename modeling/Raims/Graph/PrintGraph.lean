import Raims.Graph.LoadGraph
import Raims.Lib.Groups

/-!
# Graphs as text (`AdjGraphOut::print_graph`, not as a configuration)

The text that `load_graph` reads: the user to start with, all users, and a statement for
each connection or for several of one name. A `tcp` statement has the links of one user with
one name, a star, or a single link; a link in the other direction that belongs to a printed
one is then not printed. A `mesh` or `pgm` statement has all users with links of one name.

A bit set over a table of links is the list of the links in it, in their order.
-/

namespace Raims

namespace PrintGraph

open LoadGraph (newline)

/-- A statement: the type of the links, their name, the users and the cost. -/
structure Line where
  type : Text
  tport : Text
  users : List Text
  cost : AdjCost
deriving DecidableEq

/-- `print_cost`: nothing for the default, which is one whatever the path is. -/
def costWords (cost : AdjCost) : List Text :=
  if cost.maxCost = cost.minCost ∧ COST_DEFAULT = cost.maxCost then [] else [text ":", cost.str]

/-- Words with blanks between them. -/
def joinWords (first : Text) (words : List Text) : Text :=
  first ++ words.flatMap fun w => 0x20 :: w

def Line.render (l : Line) : Text :=
  joinWords (l.type ++ text "_" ++ l.tport) (l.users ++ costWords l.cost)

section Print

variable (g : AdjGraph)

/-- `user.val` of the user at an index. -/
def userName (i : ℕ) : Text := text (((g.userTab[i]?).map AdjUser.user).getD "")

/-- The links of all users, those of one after those of another. -/
def allLinks : List AdjLink := g.userTab.flatMap AdjUser.links

/-- `tcp`, `mesh` or `pgm`, the links of one type. -/
def table (type : String) : List AdjLink := (allLinks g).filter fun l => l.type = type

/-! ## `print_mesh` -/

/-- The users that were printed, as a set and in their order, after one more link of the
name. -/
def useUser (link : AdjLink) (s : Finset ℕ × List ℕ) (test : AdjLink) : Finset ℕ × List ℕ :=
  if test.a ∈ s.1 then s
  else
    let used := insert test.a s.1
    if link.a ∈ used then (used, s.2 ++ [test.a])
    else (insert link.a used, s.2 ++ [link.a] ++ [test.a])

/-- The users printed for the links after the first one of their name. -/
def meshUsers (link : AdjLink) (tests : List AdjLink) : List ℕ :=
  (tests.foldl (useUser link) (∅, [])).2

def meshLine : List AdjLink → Option Line
  | [] => none
  | link :: tests =>
    some ⟨text link.type, text link.tport, (meshUsers link tests).map (userName g), link.cost⟩

/-- `print_mesh`: the loop over `unused` takes the links of one name after those of
another. -/
def printMesh (mesh : List AdjLink) : List Line :=
  (Groups.groups AdjLink.tport mesh.length mesh).filterMap (meshLine g)

/-! ## `print_tcp` -/

/-- The links of one user with one name. -/
def sameStar (link test : AdjLink) : Bool := link.a = test.a && link.tport = test.tport

/-- The loop that finds the stars: the links that were visited and are left, and those not
visited yet. The result is the queue and the links that are left. -/
def findStars : ℕ → List AdjLink → List AdjLink → List (List AdjLink) × List AdjLink
  | 0, visited, _ => ([], visited)
  | _ + 1, visited, [] => ([], visited)
  | n + 1, visited, link :: rest =>
    let before := visited.filter (sameStar link)
    let behind := rest.filter (sameStar link)
    if before ++ behind = [] then findStars n (visited ++ [link]) rest
    else
      let r := findStars n (visited.filter (!sameStar link ·)) (rest.filter (!sameStar link ·))
      ((before ++ link :: behind) :: r.1, r.2)

/-- The link in the other direction. -/
def isReverse (cur test : AdjLink) : Bool := test.a = cur.b && test.b = cur.a

/-- For each link of the stars the first link in the other direction is not printed. -/
def dropReverse (stars : List (List AdjLink)) (unused : List AdjLink) : List AdjLink :=
  stars.flatten.foldl (fun unused cur => unused.eraseP (isReverse cur)) unused

/-- The single links that are printed. -/
def singles : ℕ → List AdjLink → List AdjLink
  | 0, _ => []
  | _ + 1, [] => []
  | n + 1, link :: rest => link :: singles n (rest.eraseP (isReverse link))

/-- `print_link`, and `print_connect` for the others of a star. -/
def starLine : List AdjLink → Option Line
  | [] => none
  | link :: others =>
    some ⟨text link.type, text link.tport,
      userName g link.a :: (link :: others).map (fun cur => userName g cur.b), link.cost⟩

def printTcp (tcp : List AdjLink) : List Line :=
  let r := findStars tcp.length [] tcp
  let unused := dropReverse r.1 r.2
  r.1.filterMap (starLine g) ++
    (singles unused.length unused).filterMap fun link => starLine g [link]

/-! ## `print_graph` -/

def printStatements : List Line :=
  printTcp g (table g "tcp") ++ printMesh g (table g "mesh") ++ printMesh g (table g "pgm")

def printLines (startIdx : ℕ) : List Text :=
  if g.userTab = [] then []
  else
    joinWords (text "start") [userName g startIdx] ::
      joinWords (text "node") (g.userTab.map fun u => text u.user) ::
        (printStatements g).map Line.render

def printGraph (startIdx : ℕ) : Text := (printLines g startIdx).flatMap (· ++ [newline])

end Print

end PrintGraph

end Raims
