/-! The words of the command line. An option takes its value from the same word or from the next
one, and a long option can be cut short as long as it stays the only one that starts so. After two
dashes, what follows are no options. Only one word can be the source. -/
namespace XdrSchema.Cli

/-- Options without a value. -/
inductive Flag
  | help | noSupport | dumpTree | dumpSpec | dumpLayout | verbose | version
deriving DecidableEq

/-- Options with a value. -/
inductive Parameter
  | out | settings
deriving DecidableEq

inductive Choice
  | flag (f : Flag)
  | parameter (p : Parameter)

def names : List (String × Choice) :=
  [("-h", .flag .help), ("--help", .flag .help), ("-o", .parameter .out),
   ("--out", .parameter .out), ("--config", .parameter .settings),
   ("--no-prelude", .flag .noSupport), ("--dump-parse", .flag .dumpTree),
   ("--dump-ast", .flag .dumpSpec), ("--dump-layout", .flag .dumpLayout),
   ("--verbose", .flag .verbose), ("--version", .flag .version)]

/-- What a run is asked to do. An empty text stands for a parameter that was not given. -/
structure Options where
  source : String
  out : String
  settings : String
  flags : List Flag

namespace Options

/-- Nothing is asked for yet. -/
def empty : Options := ⟨"", "", "", []⟩

def has (o : Options) (f : Flag) : Bool := f ∈ o.flags

def set (o : Options) (p : Parameter) (value : String) : Options :=
  match p with
  | .out => { o with out := value }
  | .settings => { o with settings := value }

end Options

/-! ### Words -/

/-- What a word is: an option, perhaps with its value, the two dashes, or anything else. -/
inductive Word
  | option (c : Choice) (value : Option String)
  | separator
  | operand (text : String)

/-- The two sides of the first equals sign. -/
def splitValue (text : List Char) : List Char × Option String :=
  match text.dropWhile (· ≠ '=') with
  | _ :: value => (text.takeWhile (· ≠ '='), some (String.ofList value))
  | [] => (text, none)

/-- The options that a word which starts with a dash can mean: those whose name it starts, or the
one whose short name it starts with, followed by its value. -/
def candidates (text : List Char) : List (Choice × Option String) :=
  match text with
  | '-' :: '-' :: _ =>
    let (start, value) := splitValue text
    (names.filter fun n => start.isPrefixOf n.1.toList).map fun n => (n.2, value)
  | _ =>
    (names.filter fun n => n.1.toList = text.take 2).map fun n =>
      (n.2, some (String.ofList (text.drop 2)))

/-- Negative numbers are no options. -/
def isNegativeNumber : List Char → Bool
  | '-' :: digits =>
    let whole := digits.takeWhile Char.isDigit
    match digits.dropWhile Char.isDigit with
    | [] => !whole.isEmpty
    | '.' :: fraction => !fraction.isEmpty && fraction.all Char.isDigit
    | _ => false
  | _ => false

/-- A word on its own. It is refused when it is an option that does not exist or that is cut too
short. -/
def word? (text : String) : Option Word :=
  let chars := text.toList
  match names.lookup text with
  | some c => some (.option c none)
  | none =>
    if chars.head? ≠ some '-' || chars.length = 1 then some (.operand text)
    else
      let (name, value) := splitValue chars
      match names.lookup (String.ofList name), value with
      | some c, some v => some (.option c (some v))
      | _, _ =>
        match candidates chars with
        | [(c, v)] => some (.option c v)
        | [] =>
          if isNegativeNumber chars || chars.contains ' ' then some (.operand text)
          else none
        | _ => none

/-- The words of a command line. -/
def words? : List String → Option (List Word)
  | [] => some []
  | "--" :: rest => some (.separator :: rest.map .operand)
  | text :: rest => do return (← word? text) :: (← words? rest)

/-! ### Reading -/

/-- Reads words into the options so far. `closed` says that the source was given, or passed over
with two dashes; these may also stand right after it. -/
def read? (closed : Bool) (o : Options) : List Word → Option Options
  | [] => some o
  | .option (.flag f) none :: rest => read? closed { o with flags := f :: o.flags } rest
  | .option (.flag _) (some _) :: _ => none
  | .option (.parameter p) (some v) :: rest => read? closed (o.set p v) rest
  | .option (.parameter p) none :: .operand v :: rest => read? closed (o.set p v) rest
  | .option (.parameter _) none :: _ => none
  | .operand s :: .separator :: rest =>
    if closed then none else read? true { o with source := s } rest
  | .separator :: .operand s :: rest =>
    if closed then none else read? true { o with source := s } rest
  | .operand s :: rest => if closed then none else read? true { o with source := s } rest
  | .separator :: rest => if closed then none else read? true o rest

/-- The options that a command line gives. -/
def Options.parse? (arguments : List String) : Option Options := do
  read? false Options.empty (← words? arguments)

end XdrSchema.Cli
