/-!
# Positions in a text

A position is a line and a column, both counted from one. A line feed ends a
line; every other character takes one column, whatever its encoding.
-/

namespace LogicCalculator

structure Position where
  line : Nat
  column : Nat
deriving DecidableEq, Repr, Inhabited

namespace Position

def start : Position := ⟨1, 1⟩

def after (p : Position) (c : Char) : Position :=
  if c = '\n' then ⟨p.line + 1, 1⟩ else ⟨p.line, p.column + 1⟩

def afterAll (p : Position) (cs : List Char) : Position := cs.foldl after p

@[simp] theorem afterAll_nil (p : Position) : p.afterAll [] = p := rfl

@[simp] theorem afterAll_cons (p : Position) (c : Char) (cs : List Char) :
    p.afterAll (c :: cs) = (p.after c).afterAll cs := rfl

@[simp] theorem afterAll_append (p : Position) (as bs : List Char) :
    p.afterAll (as ++ bs) = (p.afterAll as).afterAll bs :=
  List.foldl_append

def text (p : Position) : String := toString p.line ++ ":" ++ toString p.column

end Position

end LogicCalculator
