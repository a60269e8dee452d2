import XdrSchema.Schema.Symbol

/-! The values of constants. A constant is a literal or another constant, so that its value stands
at the end of a chain of names. -/
namespace XdrSchema.Constant

def isSigned64 (n : Int) : Bool := -0x8000000000000000 ≤ n && n ≤ 0x7fffffffffffffff

def isSigned32 (n : Int) : Bool := -0x80000000 ≤ n && n ≤ 0x7fffffff

def isUnsigned32 (n : Int) : Bool := 0 ≤ n && n ≤ 0xffffffff

/-- The part of a path from a name on, closed by that name. -/
def cycleAt (path : List String) (name : String) : List String :=
  path.dropWhile (· ≠ name) ++ [name]

/-- The value of a name, which is referred to at `span`. `path` holds the names passed on the way
and `fresh` the symbols not passed yet, so that a chain that comes back to itself is noticed. -/
def follow (symbols : List Symbol) (fresh : List Symbol) (path : List String) (name : String)
    (span : Option Span) : Except SpecError Int :=
  match Symbol.find? symbols name with
  | none => throw ⟨.undefined name, span⟩
  | some s =>
    match s.meaning with
    | .builtin n => return n
    | .type k _ => throw ⟨.notConstant name (.names name (.type k)), span⟩
    | .constant v | .label _ v =>
      match _h : fresh.find? (·.name = name) with
      | none => throw ⟨.cyclic (cycleAt path name), span⟩
      | some _ =>
        match v with
        | .literal n _ _ =>
          if isSigned64 n then return n else throw ⟨.notConstant name .wide, s.span⟩
        | .constant next place =>
          follow symbols (fresh.eraseP (·.name = name)) (path ++ [name]) next (some place)
termination_by fresh.length
decreasing_by
  have hmem := List.mem_of_find?_eq_some _h
  have hname := List.find?_some _h
  have := List.length_eraseP_of_mem (p := fun s => decide (s.name = name)) hmem hname
  have := List.length_pos_of_mem hmem
  omega

/-- The value of a named constant or label. -/
def valueOf (symbols : List Symbol) (name : String) (span : Option Span) : Except SpecError Int :=
  follow symbols symbols [] name span

def evaluate (symbols : List Symbol) : Spec.Value → Except SpecError Int
  | .literal n _ _ => return n
  | .constant name span => valueOf symbols name (some span)

/-- A bound has to be a number that a length word can hold. -/
def bound (symbols : List Symbol) (v : Spec.Value) : Except SpecError Nat := do
  let n ← evaluate symbols v
  if isUnsigned32 n then return n.toNat
  else throw ⟨.notConstant v.text (.bound n), some v.span⟩

/-- Every constant and label has a value. -/
def checkAll (symbols : List Symbol) : Except SpecError Unit :=
  symbols.forM fun s =>
    match s.kind with
    | .type _ => return ()
    | _ => do let _ ← valueOf symbols s.name s.span

end XdrSchema.Constant

namespace XdrSchema.Symbol

/-- The constants that definitions introduce, with their values, in order. -/
def constants (symbols : List Symbol) : List (String × Int) :=
  symbols.filterMap fun s =>
    match s.meaning with
    | .constant v => (Constant.evaluate symbols v).toOption.map fun n => (s.name, n)
    | _ => none

end XdrSchema.Symbol
