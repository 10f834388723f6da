/-!
# Pages of indented lines

Printed modules are lines of text, each at a level of indentation.  A page collects lines and
knows the level at which the next one goes; how wide a level is, is decided when the page is
rendered.

## Main definitions

* `ContractIR.Print.Indent`, `Style` — how levels look, and what is printed.
* `ContractIR.Print.Page` — collected lines, with `indent`, `dedent`, `line` and `block`.
* `ContractIR.Print.Page.text` — the rendered page.
-/

set_option autoImplicit false

namespace ContractIR.Print

/-- What one level of indentation is made of. -/
inductive Indent where
  | spaces (width : Nat)
  | tabs
deriving DecidableEq, Inhabited

/-- The text of one level. -/
def Indent.unit : Indent → String
  | .spaces width => String.ofList (List.replicate width ' ')
  | .tabs => "\t"

/-- What a printed module shows. -/
structure Style where
  colors : Bool := false
  indent : Indent := .spaces 2
  /-- Whether every operation shows its location. -/
  locations : Bool := false
  /-- Whether entry blocks without arguments show their header. -/
  entryHeaders : Bool := false
deriving DecidableEq, Inhabited

/-- A line of text at a level of indentation. -/
structure PageLine where
  level : Nat
  text : String
deriving DecidableEq, Inhabited

/-- Lines that were written, and the level of the next one. -/
structure Page where
  level : Nat := 0
  /-- The text of one level. -/
  unit : String := Indent.unit (.spaces 2)
  colors : Bool := false
  lines : Array PageLine := #[]
deriving DecidableEq, Inhabited

namespace Page

/-- An empty page in a style. -/
def ofStyle (style : Style) : Page := { unit := style.indent.unit, colors := style.colors }

/-- Goes one level in. -/
def indent (p : Page) : Page := { p with level := p.level + 1 }

/-- Goes one level out; the outermost level is its own outside. -/
def dedent (p : Page) : Page := { p with level := p.level - 1 }

/-- Writes a line at the current level. -/
def line (p : Page) (text : String) : Page := { p with lines := p.lines.push ⟨p.level, text⟩ }

/-- Writes lines at levels of their own. -/
def append (p : Page) (lines : List PageLine) : Page :=
  { p with lines := p.lines ++ lines.toArray }

/-- Writes a header with an opening brace, then what `body` writes one level in, then the closing
brace with a footer.  A body that fails leaves the page as it stands then. -/
def block {ε : Type} (header footer : String) (body : EStateM ε Page Unit) :
    EStateM ε Page Unit := do
  modify fun p => (p.line (header ++ " \x7b")).indent
  body
  modify fun p => p.dedent.line ("\x7d" ++ footer)

/-- The text of some levels. -/
def margin (unit : String) : Nat → String
  | 0 => ""
  | level + 1 => unit ++ margin unit level

/-- The margin of the next line. -/
def currentMargin (p : Page) : String := margin p.unit p.level

/-- The rendered page: every line with its margin and a line feed. -/
def text (p : Page) : String :=
  p.lines.foldl (fun s l => s ++ margin p.unit l.level ++ l.text ++ "\n") ""

end Page

end ContractIR.Print
