import OpenAddressing.Text.Field

/-!
# Templates

A template is a text with fields in braces. A field names an argument, by its number or, if
nothing is written, as the one after the argument of the field before; after the name may
come what is to be selected from the argument, the letter of a conversion after `!`, and a
layout after `:`. Doubled braces stand for themselves. Reading never fails: a flaw becomes a
piece of its own, since what stands before it counts first.
-/

namespace OpenAddressing.Text

inductive Flaw where
  | strayOpening
  | strayClosing
  | openingInName
  | unclosedName
  | unclosedConversion
  | unclosedLayout
  | afterConversion
  | unknownConversion (letter : Char)
  | wideNumber
  | unnumbered
  | numbered
  | emptySelector
  | unclosedBracket
  | afterBracket
  /-- Fields in layouts of fields in layouts. -/
  | tooDeep

inductive Piece where
  | literal (c : Char)
  | argument (name : List Char) (conversion : Option Char) (layout : List Char)
  | flaw (flaw : Flaw)

def opening : Char := '\x7b'

def closing : Char := '\x7d'

section Names

inductive Reference where
  | number (n : Nat)
  | name (s : String)

/-- How many arguments have been taken without a number; nothing once a number is written,
since a template does either the one or the other. -/
abbrev Numbering := Option Nat

def readReference (cs : List Char) : Except Flaw Reference :=
  match takeDecimal cs with
  | (none, _) => .ok (.name (String.ofList cs))
  | (some n, rest) =>
    if wordBound ≤ n then .error .wideNumber
    else if rest.isEmpty then .ok (.number n)
    else .ok (.name (String.ofList cs))

def numberReference (numbering : Numbering) : Reference → Except Flaw (Reference × Numbering)
  | .name "" =>
    match numbering with
    | some n => .ok (.number n, some (n + 1))
    | none => .error .unnumbered
  | .name s => .ok (.name s, numbering)
  | .number n =>
    match numbering with
    | some (_ + 1) => .error .numbered
    | _ => .ok (.number n, none)

def beginsSelector (c : Char) : Bool := c = '.' ∨ c = '['

inductive Selector where
  | member (name : String)
  | item (reference : Reference)
  | flaw (flaw : Flaw)

/-- Where in a row of selectors the reader is. What has been read of a name is kept with the
last character first. -/
inductive SelectorPlace where
  | between
  | member (read : List Char)
  | item (read : List Char)

def Selector.ofMember (cs : List Char) : Selector :=
  if cs.isEmpty then .flaw .emptySelector else .member (String.ofList cs)

def Selector.ofItem (cs : List Char) : Selector :=
  if cs.isEmpty then .flaw .emptySelector
  else
    match readReference cs with
    | .ok reference => .item reference
    | .error cause => .flaw cause

def selectorsFrom : SelectorPlace → List Char → List Selector
  | .between, [] => []
  | .between, c :: rest =>
    if c = '.' then selectorsFrom (.member []) rest
    else if c = '[' then selectorsFrom (.item []) rest
    else [.flaw .afterBracket]
  | .member read, [] => [.ofMember read.reverse]
  | .member read, c :: rest =>
    if c = '.' then .ofMember read.reverse :: selectorsFrom (.member []) rest
    else if c = '[' then .ofMember read.reverse :: selectorsFrom (.item []) rest
    else selectorsFrom (.member (c :: read)) rest
  | .item _, [] => [.flaw .unclosedBracket]
  | .item read, c :: rest =>
    if c = ']' then .ofItem read.reverse :: selectorsFrom .between rest
    else selectorsFrom (.item (c :: read)) rest

end Names

section Pieces

inductive Place where
  | text
  | name (read : List Char)
  /-- In the name of an argument, after a bracket, where only another bracket counts. -/
  | bracket (read : List Char)
  | conversion (name : List Char)
  | converted (name : List Char) (letter : Char)
  | layout (name : List Char) (conversion : Option Char) (depth : Nat) (read : List Char)

def Place.remains : Place → List Piece
  | .text => []
  | .name [] => [.flaw .strayOpening]
  | .name _ => [.flaw .unclosedName]
  | .bracket _ => [.flaw .unclosedName]
  | .conversion _ => [.flaw .unclosedConversion]
  | .converted _ _ => [.flaw .unclosedLayout]
  | .layout _ _ _ _ => [.flaw .unclosedLayout]

/-- The pieces of a template from some place on, up to the first flaw in its braces. -/
def piecesFrom : Place → List Char → List Piece
  | place, [] => place.remains
  | .text, c :: rest =>
    if c = opening then piecesFrom (.name []) rest
    else if c = closing then
      match rest with
      | [] => [.flaw .strayClosing]
      | d :: tail =>
        if d = closing then .literal closing :: piecesFrom .text tail else [.flaw .strayClosing]
    else .literal c :: piecesFrom .text rest
  | .name read, c :: rest =>
    if c = opening then
      if read.isEmpty then .literal opening :: piecesFrom .text rest
      else [.flaw .openingInName]
    else if c = closing then .argument read.reverse none [] :: piecesFrom .text rest
    else if c = '!' then piecesFrom (.conversion read.reverse) rest
    else if c = ':' then piecesFrom (.layout read.reverse none 0 []) rest
    else if c = '[' then piecesFrom (.bracket (c :: read)) rest
    else piecesFrom (.name (c :: read)) rest
  | .bracket read, c :: rest =>
    if c = ']' then piecesFrom (.name (c :: read)) rest
    else piecesFrom (.bracket (c :: read)) rest
  | .conversion name, c :: rest => piecesFrom (.converted name c) rest
  | .converted name letter, c :: rest =>
    if c = closing then .argument name (some letter) [] :: piecesFrom .text rest
    else if c = ':' then piecesFrom (.layout name (some letter) 0 []) rest
    else [.flaw .afterConversion]
  | .layout name conversion depth read, c :: rest =>
    if c = opening then piecesFrom (.layout name conversion (depth + 1) (c :: read)) rest
    else if c = closing then
      match depth with
      | 0 => .argument name conversion read.reverse :: piecesFrom .text rest
      | depth + 1 => piecesFrom (.layout name conversion depth (c :: read)) rest
    else piecesFrom (.layout name conversion depth (c :: read)) rest

def pieces (template : List Char) : List Piece := piecesFrom .text template

end Pieces

end OpenAddressing.Text
