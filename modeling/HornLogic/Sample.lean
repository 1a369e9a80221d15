/-!
# Sample programs

Ready-made programs, each with a few queries worth asking.
-/

namespace HornLogic

/-- A named program with queries for it. -/
structure Sample where
  name : String
  description : String
  source : String
  queries : List String
  deriving DecidableEq, Inhabited

namespace Sample

/-- A program text with these lines, after an empty one. -/
def programText (lines : List String) : String :=
  "\n" ++ String.join (lines.map (· ++ "\n"))

def family : Sample where
  name := "family"
  description := "parents, grandparents, siblings and ancestors"
  source := programText
    ["% A small family tree.",
      "parent(tom, bob).",
      "parent(tom, liz).",
      "parent(bob, ann).",
      "parent(bob, pat).",
      "parent(pat, jim).",
      "",
      "grandparent(X, Z) :- parent(X, Y), parent(Y, Z).",
      "sibling(X, Y) :- parent(P, X), parent(P, Y), X \\= Y.",
      "",
      "ancestor(X, Y) :- parent(X, Y).",
      "ancestor(X, Y) :- parent(X, Z), ancestor(Z, Y)."]
  queries := ["grandparent(tom, X).", "sibling(ann, S).", "ancestor(tom, D)."]

def peano : Sample where
  name := "peano"
  description := "Peano naturals and addition run backwards"
  source := programText
    ["% Natural numbers as z, s(z), s(s(z)), ...",
      "nat(z).",
      "nat(s(N)) :- nat(N).",
      "",
      "plus(z, Y, Y).",
      "plus(s(X), Y, s(Z)) :- plus(X, Y, Z)."]
  queries := ["plus(s(z), s(z), N).", "plus(X, Y, s(s(z)))."]

def graph : Sample where
  name := "graph"
  description := "paths in a small directed graph"
  source := programText
    ["% Reachability in a directed acyclic graph.",
      "edge(a, b).",
      "edge(a, c).",
      "edge(b, d).",
      "edge(c, d).",
      "edge(d, e).",
      "",
      "path(X, Y) :- edge(X, Y).",
      "path(X, Y) :- edge(X, Z), path(Z, Y)."]
  queries := ["path(a, X).", "path(X, e)."]

def coloring : Sample where
  name := "coloring"
  description := "map coloring by generate and test with \\="
  source := programText
    ["% Color the mainland states of Australia so that neighbours differ.",
      "color(red).",
      "color(green).",
      "color(blue).",
      "",
      "coloring(WA, NT, SA, Q, NSW, V) :-",
      "    color(WA), color(NT), color(SA), color(Q), color(NSW), color(V),",
      "    WA \\= NT, WA \\= SA, NT \\= SA, NT \\= Q, SA \\= Q,",
      "    SA \\= NSW, SA \\= V, Q \\= NSW, NSW \\= V."]
  queries := ["coloring(WA, NT, SA, Q, NSW, V)."]

def catalog : List Sample :=
  [family, peano, graph, coloring]

def find? (name : String) : Option Sample :=
  catalog.find? fun sample => sample.name == name

end Sample

end HornLogic
