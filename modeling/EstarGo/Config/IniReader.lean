import EstarGo.Player.Vertex
import Mathlib.Data.Rat.Floor

/-!
# The reader of configuration files

`IniReader` keeps the lines of a file, and an index of its section lines.  A
lookup finds the section in the index and reads the lines behind it, up to the
next line that starts with a bracket; `at(0)` throws on an empty one.

## Main definitions

* `IniReader` — the reader: `openFile`, `saveFile`, `close`.
* `getString`, `getInt`, `getFloat`, `getBool` — the lookups.
* `writeString` — a write.
* `atof` — a number of the C library, without its rounding.

## Design notes

**Files.**  A file is its text, and a stream is how it was opened.  A file that
cannot be opened is left out: the functions return false before they read or
write anything.

**Texts of the C library.**  Names and values go through `c_str()`, so a text
ends at its first null for whoever compares or prints it.

**As the source has it.**  The key of a line is everything in front of its first
`=`, blanks included, and the value everything behind it.  An empty line within
a section throws, also one that separates it from the next.
-/

namespace EstarGo

/-- A `std::string`, character by character. -/
abbrev Text := List Char

/-- `c_str()`, read as a C string: the text before its first null.  The reader
compares and writes some of its texts this way and others whole. -/
def cStr (text : Text) : Text := text.takeWhile (· ≠ Char.ofNat 0)

/-- The lines that `std::getline` reads.  A last line without its end is a line,
and an end at the end of the file makes none. -/
def getLines : Text → List Text
  | [] => []
  | c :: rest =>
      if c = '\n' then [] :: getLines rest
      else
        match getLines rest with
        | [] => [[c]]
        | line :: lines => (c :: line) :: lines

/-- The value of a decimal exponent, where one follows, with its sign.  Without
digits behind it the source's `atof` reads no exponent, and here the exponent is
zero. -/
def atofExponent : Text → ℤ
  | c :: '-' :: rest => if c = 'e' ∨ c = 'E' then -decimal (rest.takeWhile Char.isDigit) else 0
  | c :: '+' :: rest => if c = 'e' ∨ c = 'E' then decimal (rest.takeWhile Char.isDigit) else 0
  | c :: rest => if c = 'e' ∨ c = 'E' then decimal (rest.takeWhile Char.isDigit) else 0
  | [] => 0

/-- The digits behind a decimal point, where one follows. -/
def atofFraction : Text → Text
  | '.' :: rest => rest.takeWhile Char.isDigit
  | _ => []

/-- What follows these digits. -/
def atofRest : Text → Text
  | '.' :: rest => rest.dropWhile Char.isDigit
  | rest => rest

/-- The number `strtod` reads, without its sign: digits, a fraction, an
exponent. -/
def atofUnsigned (text : Text) : ℚ :=
  let rest := text.dropWhile Char.isDigit
  (decimal (text.takeWhile Char.isDigit) +
      decimal (atofFraction rest) / 10 ^ (atofFraction rest).length) *
    10 ^ atofExponent (atofRest rest)

/-- `atof` on decimal numbers, before rounding; hexadecimal digits, infinities
and NaNs are left out. -/
def atof (text : Text) : ℚ :=
  match text.dropWhile isSpace with
  | '-' :: rest => -atofUnsigned rest
  | '+' :: rest => atofUnsigned rest
  | rest => atofUnsigned rest

/-- `AppIndex`: a section line and its index among the lines.  The name is the
line as it is, with its brackets and whatever follows them. -/
structure AppIndex where
  name : Text
  index : ℕ
  deriving DecidableEq, Repr

/-- How the stream is opened: to read or to write. -/
inductive OpenMode where
  | input
  | output
  deriving DecidableEq, Repr

/-- `class IniReader`, with the two vectors and the stream. -/
structure IniReader where
  applines : List AppIndex
  lines : List Text
  f : Option OpenMode
  deriving DecidableEq, Repr

/-- The name of a section in brackets, as it is compared with a section line.  A
line with a blank behind the bracket is therefore another section. -/
def bracketed (appName : Text) : Text := '[' :: cStr appName ++ [']']

/-- `substr(0, find('='))`: the whole line where there is no such sign.  Blanks
in front of the sign belong to the key. -/
def keyOf (line : Text) : Text := line.takeWhile (· ≠ '=')

/-- `substr(find('=') + 1)`: the whole line where there is no such sign.  Blanks
around the value belong to it. -/
def valueOf (line : Text) : Text :=
  if '=' ∈ line then (line.dropWhile (· ≠ '=')).tail else line

/-- How the scan of a section ends: an empty line throws, a bracket ends the
section, a key is found, or the lines end.  It throws because the first
character of each line is asked for with `at(0)`. -/
inductive Scan where
  | thrown
  | stopped
  | found (key : ℕ) (line : Text)
  | exhausted
  deriving DecidableEq, Repr

/-- The inner loop of `GetString` and `WriteString`, over the lines from an
index on. -/
def scanKeys (keyName : Text) : ℕ → List Text → Scan
  | _, [] => .exhausted
  | _, [] :: _ => .thrown
  | key, (c :: line) :: rest =>
      if c = '[' then .stopped
      else if cStr keyName = cStr (keyOf (c :: line)) then .found key (c :: line)
      else scanKeys keyName (key + 1) rest

namespace IniReader

/-- A reader before its first file, which answers every lookup with the
default. -/
def new : IniReader := ⟨[], [], none⟩

/-- The index of the section lines, which start with a bracket. -/
def indexLines : ℕ → List Text → List AppIndex
  | _, [] => []
  | index, line :: rest =>
      if line.head? = some '[' then ⟨line, index⟩ :: indexLines (index + 1) rest
      else indexLines (index + 1) rest

/-- What a stream has written to its file when it is closed.  A stream that was
opened for input is written to as well, and nothing of it arrives. -/
def written (r : IniReader) (file : Text) : Text :=
  if r.f = some .output then r.lines.flatMap fun line => cStr line ++ ['\n'] else file

/-- `Close`: the reader and the file after it.  A stream opened for input takes
no output. -/
def close (r : IniReader) (file : Text) : IniReader × Text := (⟨[], [], none⟩, r.written file)

/-- `OpenFile`, on a file that can be opened.  A file without a section is
closed again at once, and the reader is as it was before its first file. -/
def openFile (r : IniReader) (file : Text) : IniReader × Bool :=
  if r.f.isSome then (r, false)
  else
    let lines := getLines file
    let applines := indexLines 0 lines
    if lines ≠ [] ∧ applines ≠ [] then (⟨applines, lines, some .input⟩, true)
    else ((close ⟨applines, lines, some .input⟩ file).1, false)

/-- `SaveFile`, on a file that can be opened; it empties the file. -/
def saveFile (r : IniReader) : IniReader × Bool :=
  if r.f.isSome then (r, false) else (⟨[], [], some .output⟩, true)

/-- The outer loop of `GetString`; `none` where it throws. -/
def getStringFrom (lines : List Text) (appName keyName defaultValue : Text) :
    List AppIndex → Option Text
  | [] => some defaultValue
  | app :: rest =>
      if cStr (bracketed appName) = cStr app.name then
        match scanKeys keyName (app.index + 1) (lines.drop (app.index + 1)) with
        | .thrown => none
        | .stopped => some defaultValue
        | .found _ line => some (valueOf line)
        | .exhausted => getStringFrom lines appName keyName defaultValue rest
      else getStringFrom lines appName keyName defaultValue rest

/-- `GetString`.  Without lines or sections it answers the default. -/
def getString (r : IniReader) (appName keyName defaultValue : Text) : Option Text :=
  if r.lines = [] ∨ r.applines = [] then some defaultValue
  else getStringFrom r.lines appName keyName defaultValue r.applines

/-- The three typed lookups read the text that is found, and take the default
where it is empty.  A text that is no number is read as zero, and not as the
default. -/
def getAs {α : Type} (read : Text → α) (r : IniReader) (appName keyName : Text)
    (defaultValue : α) : Option α :=
  (r.getString appName keyName []).map fun str => if str ≠ [] then read str else defaultValue

/-- `GetInt`, by `atoi`. -/
def getInt : IniReader → Text → Text → ℤ → Option ℤ := getAs atoi

/-- `GetFloat`, by `atof`. -/
def getFloat : IniReader → Text → Text → ℚ → Option ℚ := getAs atof

/-- `GetBool`: a number that is not zero. -/
def getBool : IniReader → Text → Text → Bool → Option Bool := getAs fun str => atoi str ≠ 0

/-- Where a write ends: it throws, finds no such section, or leaves another
index and other lines. -/
inductive Write where
  | thrown
  | noSection
  | done (applines : List AppIndex) (lines : List Text)
  deriving DecidableEq, Repr

/-- A line put in front of the one at an index. -/
def insertLine (lines : List Text) (index : ℕ) (line : Text) : List Text :=
  lines.take index ++ line :: lines.drop index

/-- The loop of `WriteString` over the sections.  A key that is not found is put
in front of the section's lines, and the indices of the later sections go up. -/
def writeFrom (lines : List Text) (appName keyName value : Text) : List AppIndex → Write
  | [] => .noSection
  | app :: rest =>
      if cStr (bracketed appName) = cStr app.name then
        match scanKeys keyName (app.index + 1) (lines.drop (app.index + 1)) with
        | .thrown => .thrown
        | .found key _ => .done (app :: rest) (lines.set key (keyName ++ '=' :: cStr value))
        | _ =>
            .done (app :: rest.map fun a => { a with index := a.index + 1 })
              (insertLine lines (app.index + 1) (keyName ++ '=' :: value))
      else
        match writeFrom lines appName keyName value rest with
        | .done applines lines => .done (app :: applines) lines
        | r => r

/-- `WriteString`; `none` where it throws.  A new section is indexed when its
line has been put at the end: the index is one too great, so that lookups begin
behind the first line of the section. -/
def writeString (r : IniReader) (appName keyName value : Text) : Option (IniReader × Bool) :=
  match writeFrom r.lines appName keyName value r.applines with
  | .thrown => none
  | .done applines lines => some ({ r with applines := applines, lines := lines }, true)
  | .noSection =>
      let lines := r.lines ++ [bracketed appName]
      some ({ r with
        applines := r.applines ++ [⟨bracketed appName, lines.length⟩]
        lines := lines ++ [keyName ++ '=' :: cStr value] }, false)

end IniReader

end EstarGo
