import StyledMap.Ini.Basic
import StyledMap.Json.Token
import StyledMap.Text.Blank

/-! Reading files of sections. A statement is a heading in brackets, or a key and its value around `=`
or `:`. Lines that start with `;` or `#` are remarks. Backslashes escape in names, keys and values, and
a value may be quoted. An indented line is read more freely: it may be anything up to the next `=` or
`:`, may be left unfinished at the end of the text, and an escape in it that fails ends it there. -/
namespace StyledMap.Ini

/-- What stands up to the first stop character, its escapes resolved. -/
inductive Scan where
  /-- The rest starts with the stop character. -/
  | stopped (text rest : List Char)
  /-- There is none. -/
  | ended (text : List Char)
  /-- An escape denotes no character. `rest` starts with the character that shows it, and `fresh` says
  whether that one starts a line. -/
  | broken (fresh : Bool) (rest : List Char)

def Scan.cons (c : Char) : Scan → Scan
  | .stopped text rest => .stopped (c :: text) rest
  | .ended text => .ended (c :: text)
  | .broken fresh rest => .broken fresh rest

/-- The character of an escape by one letter; letters without a meaning stand for themselves. -/
def escaped : Char → Char
  | '0' => '\x00'
  | 'a' => '\x07'
  | 'b' => '\x08'
  | 't' => '\t'
  | 'r' => '\r'
  | 'n' => '\n'
  | c => c

/-- The character with a number in four places: hexadecimal digits, the first place may be a plus sign. -/
def numbered? : List Char → Option Char
  | [a, b, c, d] => match Json.unit? (if a = '+' then '0' else a) b c d with
    | some n => if n < 0xD800 ∨ 0xDFFF < n then some (Char.ofNat n) else none
    | none => none
  | _ => none

/-- Where a scan stands. -/
inductive Place where
  | plain
  /-- After a backslash. -/
  | escape
  /-- Among the places of a number, those read so far latest first. -/
  | number (places : List Char) (fresh : Bool)
  /-- After a backslash among them; only the end of a line may follow. -/
  | join (places : List Char)

/-- Reads up to a stop character. A backslash at the end of a line joins it to the next one, and one at
the end of the text stands for itself. -/
def scanFrom (stop : Char → Bool) : Place → List Char → Scan
  | .plain, [] => .ended []
  | .escape, [] => .ended ['\\']
  | .number _ _, [] => .broken false []
  | .join _, [] => .broken false []
  | .plain, c :: rest =>
    if stop c then .stopped [] (c :: rest)
    else if c = '\\' then scanFrom stop .escape rest
    else (scanFrom stop .plain rest).cons c
  | .escape, c :: rest =>
    if c = 'x' then scanFrom stop (.number [] false) rest
    else if c = '\n' then scanFrom stop .plain rest
    else (scanFrom stop .plain rest).cons (escaped c)
  | .number places fresh, c :: rest =>
    if c = '\\' then scanFrom stop (.join places) rest
    else if places.length < 3 then scanFrom stop (.number (c :: places) (c == '\n')) rest
    else match numbered? (c :: places).reverse with
      | some e => (scanFrom stop .plain rest).cons e
      | none => .broken fresh (c :: rest)
  | .join places, c :: rest =>
    if c = '\n' ∧ places.length < 3 then scanFrom stop (.number ('\\' :: places) true) rest
    else .broken false (c :: rest)

def scan (stop : Char → Bool) (cs : List Char) : Scan := scanFrom stop .plain cs

@[simp] theorem scan_nil (stop : Char → Bool) : scan stop [] = .ended [] := rfl

/-- A stop character is not looked behind. -/
theorem scan_stop {stop : Char → Bool} {c : Char} (h : stop c = true) (rest : List Char) :
    scan stop (c :: rest) = .stopped [] (c :: rest) := by
  simp [scan, scanFrom, h]

theorem scan_cons {stop : Char → Bool} {c : Char} (h : stop c = false) (hc : c ≠ '\\')
    (rest : List Char) : scan stop (c :: rest) = (scan stop rest).cons c := by
  simp [scan, scanFrom, h, hc]

def isQuote (c : Char) : Bool := c == '\"' || c == '\''
def isLineEnd (c : Char) : Bool := c == '\n' || c == '\r'
def isIndent (c : Char) : Bool := c == ' ' || c == '\t'
def isAssign (c : Char) : Bool := c == '=' || c == ':'

/-- A value that starts here, and what follows it. Quoted parts come first, at most `left` of them, and
are kept as they are; a part without quotes ends the value and loses the blanks at its ends, those in
front only if there is no quoted part before it. -/
def valueUpTo (left : Nat) (first : Bool) (cs : List Char) : Option (List Char × List Char) :=
  let bare (text : List Char) := if first then Text.trim text else Text.trimRight text
  match cs with
  | [] => some ([], [])
  | q :: inside =>
    if isQuote q then match left, scan (· == q) inside with
      | n + 1, .stopped text (_ :: rest) => match valueUpTo n false rest with
        | some (more, rest) => some (text ++ more, rest)
        | none => none
      | _, _ => none
    else match scan isLineEnd (q :: inside) with
      | .stopped text rest => some (bare text, rest)
      | .ended text => some (bare text, [])
      | .broken _ _ => none

/-- A value after the blanks in front of it; they do not reach beyond the line. -/
def value? (cs : List Char) : Option (List Char × List Char) :=
  let start := cs.dropWhile (fun c => Text.isBlank c && !isLineEnd c)
  valueUpTo start.length true start

/-- Drops blanks. At the end of a line this stops in front of an indent. `fresh` says whether the text
starts a line. -/
def skip (fresh : Bool) : List Char → Bool × List Char
  | [] => (fresh, [])
  | c :: cs =>
    if Text.isBlank c then
      if isLineEnd c && (cs.head?.map isIndent).getD false then (c == '\n', cs)
      else skip (c == '\n') cs
    else (fresh, c :: cs)

/-- What a text holds at some place: no more statements, or perhaps one. `fresh` says whether `rest` starts
a line. -/
inductive Step where
  | finished
  | next (found : Option Statement) (fresh : Bool) (rest : List Char)

/-- A step that takes the blanks behind it along. -/
def Step.spaced (found : Option Statement) (fresh : Bool) (rest : List Char) : Step :=
  .next found (skip fresh rest).1 (skip fresh rest).2

def heading? (cs : List Char) : Option Step :=
  match scan (· == ']') cs with
  | .stopped name (_ :: rest) =>
    some (.spaced (some (.heading (Text.trimmed (String.ofList name)))) false rest)
  | _ => none

/-- The entry of a key; `rest` starts with the character that assigns the value. -/
def entry? (key rest : List Char) : Option Step :=
  if Text.trim key = [] then none
  else match value? (rest.drop 1) with
    | some (value, rest) =>
      some (.spaced (some (.entry (String.ofList (Text.trim key)) (String.ofList value))) false rest)
    | none => none

/-- A statement behind an indent. If the line holds nothing else, what follows it is taken as it is, an
indent or another blank included. -/
def indented? : List Char → Option Step
  | [] => some .finished
  | c :: cs =>
    if c = '[' then heading? cs
    else if isLineEnd c then some (.next none (c == '\n') cs)
    else match scan isAssign (c :: cs) with
      | .stopped key rest => entry? key rest
      | .ended _ => some .finished
      | .broken fresh rest => some (.spaced none fresh rest)

/-- What follows the line that the text starts in. -/
def nextLine (cs : List Char) : List Char := (cs.dropWhile (· != '\n')).drop 1

/-- The statement that a text starts with. A remark must start its line. -/
def step? (fresh : Bool) : List Char → Option Step
  | [] => some .finished
  | c :: cs =>
    if c = ';' ∨ c = '#' then if fresh then some (.spaced none true (nextLine cs)) else none
    else if c = '[' then heading? cs
    else if isLineEnd c then some (.spaced none (c == '\n') cs)
    else if isIndent c then indented? (cs.dropWhile isIndent)
    else match scan isAssign (c :: cs) with
      | .stopped key rest => entry? key rest
      | _ => none

/-- The statements of a text, at most `left`. Every one takes a character at least, so the length of the
text is enough. -/
def statementsUpTo (left : Nat) (fresh : Bool) (cs : List Char) : Option (List Statement) :=
  match step? fresh cs with
  | none => none
  | some .finished => some []
  | some (.next found fresh rest) => match left with
    | 0 => none
    | n + 1 => (statementsUpTo n fresh rest).map (found.toList ++ ·)

def statements? (cs : List Char) : Option (List Statement) := statementsUpTo cs.length true cs

/-- Drops a byte order mark. -/
def dropMark : List Char → List Char
  | '\ufeff' :: cs => cs
  | cs => cs

def read? (s : String) : Option Ini := (statements? (dropMark s.toList)).map ofStatements

end StyledMap.Ini
