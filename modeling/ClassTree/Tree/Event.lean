/-
# ClassTree.Tree.Event — the text of a tree as a sequence of events

The text of a tree is scanned one code point at a time by a machine whose mode says what may come
next: a parenthesis, the letter `o`, a name, `=`, or a quoted text. Blanks and comments (`#` to the
end of the line) may stand between any two of these. Since the mode alone decides how a code point
is read, `(obase="x")` is the letter `o` and the name `base`.

The machine is a fold, so scanning a concatenation is scanning its parts in turn. It answers with
the events of the document, or with the position where the text stops being a tree: that of the
code point or the unclosed quoted text which does not belong there, or, where the text ends too
early, that of the last token.
-/
import ClassTree.Tree.Node

namespace ClassTree.Tree

/-- What happens in a document, in order. -/
inductive Event where
  /-- A node begins. -/
  | opening
  | attribute_ (name value : Text)
  | text (value : Text)
  /-- The innermost open node ends. -/
  | closing
  deriving DecidableEq, Repr

/-- A place in a text. Lines and columns count from one, columns in code points. -/
structure Position where
  line : Nat
  column : Nat
  deriving DecidableEq, Repr

/-- The place after a code point; only a line feed starts a line. -/
def Position.after (p : Position) (c : CodePoint) : Position :=
  if c = 0x0A then ⟨p.line + 1, 1⟩ else ⟨p.line, p.column + 1⟩

/-- What may come next between two tokens. -/
inductive Expectation where
  /-- The root node. -/
  | root
  /-- The letter `o` after an opening parenthesis. -/
  | letter
  /-- An attribute, the text, a child, or the end of the node. -/
  | attributes
  /-- The equals sign after the name of an attribute. -/
  | equals (name : Text)
  /-- The value of an attribute. -/
  | value (name : Text)
  /-- A child or the end of the node. -/
  | children
  /-- Nothing but blanks and comments. -/
  | nothing
  deriving DecidableEq, Repr

/-- The mode of the machine. Names and quoted texts under way are kept reversed. -/
inductive Mode where
  | between (next : Expectation)
  | comment (next : Expectation)
  | name (read : Text)
  /-- Inside quotes: the value of the named attribute, or the text of the node. -/
  | quoted (attribute? : Option Text) (read : Text) (escaped : Bool)
  deriving DecidableEq, Repr

/-- The state of the machine. -/
structure Scan where
  mode : Mode
  /-- The nodes that are open. -/
  depth : Nat
  /-- The place of the next code point. -/
  here : Position
  /-- The place of the last token. -/
  last : Position
  /-- The events so far, reversed. -/
  events : List Event

namespace Scan

/-- Before the first code point. -/
def initial : Scan := ⟨.between .root, 0, ⟨1, 1⟩, ⟨1, 1⟩, []⟩

/-- Space, tab, line feed, form feed and carriage return. -/
def isBlank (c : CodePoint) : Bool := c = 0x20 || c = 0x09 || c = 0x0A || c = 0x0C || c = 0x0D

/-- A letter of ASCII or an underscore. -/
def startsName (c : CodePoint) : Bool :=
  (0x41 ≤ c.val && c.val ≤ 0x5A) || (0x61 ≤ c.val && c.val ≤ 0x7A) || c = 0x5F

/-- What a name goes on with: also digits and hyphens. -/
def continuesName (c : CodePoint) : Bool :=
  startsName c || (0x30 ≤ c.val && c.val ≤ 0x39) || c = 0x2D

/-- What may follow a node at a depth. -/
def afterNode (depth : Nat) : Expectation := if depth = 0 then .nothing else .children

/-- Reads a code point between tokens. A token that starts here is the last one from now on. -/
def start (s : Scan) (next : Expectation) (c : CodePoint) : Except Position Scan :=
  let s' := { s with here := s.here.after c }
  let token := { s' with last := s.here }
  let opens := c = 0x28
  let closes := c = 0x29
  let opened :=
    { token with mode := .between .letter, depth := s.depth + 1, events := .opening :: s.events }
  let closed :=
    { token with
      mode := .between (afterNode (s.depth - 1)), depth := s.depth - 1
      events := .closing :: s.events }
  if isBlank c then .ok { s' with mode := .between next }
  else if c = 0x23 then .ok { s' with mode := .comment next }
  else match next with
  | .root => if opens then .ok opened else .error s.here
  | .letter => if c = 0x6F then .ok { token with mode := .between .attributes } else .error s.here
  | .attributes =>
    if opens then .ok opened
    else if closes then .ok closed
    else if c = quoteSign then .ok { token with mode := .quoted none [] false }
    else if startsName c then .ok { token with mode := .name [c] }
    else .error s.here
  | .equals name =>
    if c = 0x3D then .ok { token with mode := .between (.value name) } else .error s.here
  | .value name =>
    if c = quoteSign then .ok { token with mode := .quoted (some name) [] false }
    else .error s.here
  | .children =>
    if opens then .ok opened else if closes then .ok closed else .error s.here
  | .nothing => .error s.here

/-- Reads a code point inside quotes. A line feed never belongs there. -/
def inside (s : Scan) (attribute? : Option Text) (read : Text) (escaped : Bool) (c : CodePoint) :
    Except Position Scan :=
  let s' := { s with here := s.here.after c }
  if c = 0x0A then .error s.last
  else if escaped then .ok { s' with mode := .quoted attribute? (c :: read) false }
  else if c = escapeSign then .ok { s' with mode := .quoted attribute? read true }
  else if c = quoteSign then
    match attribute? with
    | some name => .ok { s' with
        mode := .between .attributes, events := .attribute_ name read.reverse :: s.events }
    | none => .ok { s' with
        mode := .between .children, events := .text read.reverse :: s.events }
  else .ok { s' with mode := .quoted attribute? (c :: read) false }

/-- Reads a code point. -/
def step (s : Scan) (c : CodePoint) : Except Position Scan :=
  match s.mode with
  | .between next => s.start next c
  | .comment next =>
    .ok { s with
      here := s.here.after c, mode := if c = 0x0A then .between next else .comment next }
  | .name read =>
    if continuesName c then .ok { s with here := s.here.after c, mode := .name (c :: read) }
    else s.start (.equals read.reverse) c
  | .quoted attribute? read escaped => s.inside attribute? read escaped c

/-- Ends the scan: a text is complete when nothing more was expected. -/
def finish (s : Scan) : Except Position (List Event) :=
  match s.mode with
  | .between .nothing | .comment .nothing => .ok s.events.reverse
  | _ => .error s.last

end Scan

/-- The events of the text of a tree, or the position where it is wrong. -/
def scan (t : Text) : Except Position (List Event) :=
  match t.foldlM Scan.step Scan.initial with
  | .ok s => s.finish
  | .error p => .error p

end ClassTree.Tree
