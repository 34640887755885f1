import EstarGo.Config.Numerals
import EstarGo.Config.Sections
import Mathlib.Data.List.ReduceOption

/-!
# Files of the shipped shape

A file has sections in brackets, and in each of them entries `key = value` and
empty lines.  The reader keeps the blanks around the sign: the key is then
another one, and a text begins with them.  On its way to the key it throws at an
empty line, and `GetBool` reads `true` as the number that `atoi` finds in it.

## Main definitions

* `Conf` — such a file, line by line.
* `ReadsWritten` — a lookup does not throw, and answers what the file says.
* `Conf.MeetsEmpty` — an empty line stands before the line of the key.
* `Conf.ReadableAt` — the condition on the entry of a key.

## Main results

* `readsWritten_iff`: the result for any getter, by what it makes of a text.
* `lookups_iff`: which lookups answer what the file says.

## Design notes

**One result for four getters.**  They differ in what they make of the text that
is found, and share everything before.  So the condition has a part for each,
the entries whose text the getter makes right.

**What the file says.**  A file of this shape says of a key what its entry says,
blanks apart.  An entry that denotes nothing, such as a word that is looked up
as a number, makes no demand on the lookup.
-/

namespace EstarGo

open IniReader

/-- Neither end is a blank. -/
def Trimmed (text : Text) : Prop :=
  (∀ c ∈ text.head?, isBlank c = false) ∧ ∀ c ∈ text.getLast?, isBlank c = false

/-- An entry `key = value`, with its blanks: before the sign, after it, and at
the end.  The shipped file has one blank before each sign and one after it. -/
structure Entry where
  key : Text
  keyBlanks : Text
  lead : Text
  value : Text
  trail : Text
  deriving DecidableEq, Repr

namespace Entry

/-- What stands before the sign. -/
def left (e : Entry) : Text := e.key ++ e.keyBlanks

/-- What stands after it. -/
def right (e : Entry) : Text := e.lead ++ e.value ++ e.trail

/-- The line of an entry. -/
def line (e : Entry) : Text := e.left ++ '=' :: e.right

/-- An entry has a key, and the blanks around its sign are none of the key or
the value. -/
structure Wf (e : Entry) : Prop where
  key : e.key ≠ [] ∧ Trimmed e.key
  bracket : e.key.head? ≠ some '['
  sign : '=' ∉ e.key
  null : Char.ofNat 0 ∉ e.key
  blanks : Blanks e.keyBlanks ∧ Blanks e.lead ∧ Blanks e.trail
  value : Trimmed e.value

end Entry

/-- A section: its name, and its lines, some of which are empty. -/
structure ConfSection where
  name : Text
  body : List (Option Entry)
  deriving DecidableEq, Repr

/-- A configuration file: lines in front of the sections, and the sections. -/
structure Conf where
  preamble : List (Option Entry)
  sections : List ConfSection
  deriving DecidableEq, Repr

/-- The line of an entry, or an empty one. -/
def lineOf (line : Option Entry) : Text := line.elim [] Entry.line

namespace ConfSection

/-- A section as a block of lines. -/
def block (sec : ConfSection) : Block := ⟨'[' :: sec.name ++ [']'], [], sec.body.map lineOf⟩

/-- Its entries. -/
def entries (sec : ConfSection) : List Entry := sec.body.reduceOption

/-- Its keys are distinct. -/
structure Wf (sec : ConfSection) : Prop where
  name : Char.ofNat 0 ∉ sec.name
  entries : ∀ e, some e ∈ sec.body → e.Wf
  keys : (sec.entries.map Entry.key).Nodup

/-- An empty line stands before the first line with the key.  A lookup comes to
it and throws. -/
def MeetsEmpty (sec : ConfSection) (keyName : Text) : Prop :=
  none ∈ sec.body.takeWhile fun line => line.all fun e => e.left ≠ cStr keyName

end ConfSection

namespace Conf

/-- The lines of a configuration file. -/
def lines (conf : Conf) : List Text :=
  render (conf.preamble.map lineOf) (conf.sections.map ConfSection.block)

/-- Its sections are distinct. -/
structure Wf (conf : Conf) : Prop where
  preamble : ∀ e, some e ∈ conf.preamble → e.Wf
  sections : ∀ sec ∈ conf.sections, sec.Wf
  names : (conf.sections.map ConfSection.name).Nodup

/-- The entry of a key in a section. -/
def entry (conf : Conf) (appName keyName : Text) : Option Entry :=
  (conf.sections.find? fun sec => sec.name = appName).bind fun sec =>
    sec.entries.find? fun e => e.key = keyName

/-- A lookup of the key comes to an empty line. -/
def MeetsEmpty (conf : Conf) (appName keyName : Text) : Prop :=
  ∃ sec ∈ conf.sections.find? fun sec => sec.name = cStr appName, sec.MeetsEmpty keyName

/-- A lookup meets no empty line, and the entry of its key, where it denotes
something, has no blank before the sign and is kept as it is.  What is kept as
it is depends on the getter: only the text of `GetString` is changed by the
blanks around it. -/
def ReadableAt {α : Type} (Denotes : Text → α → Prop) (Kept : Entry → Prop) (conf : Conf)
    (appName keyName : Text) : Prop :=
  ¬ conf.MeetsEmpty appName keyName ∧ ∀ e, conf.entry appName keyName = some e →
    (∃ w, Denotes e.value w) → e.keyBlanks = [] ∧ Kept e

end Conf

/-- `true` and `false`, and the numbers that stand for them.  The getter knows
the numbers only. -/
def BoolText (text : Text) (b : Bool) : Prop :=
  (text = ['t', 'r', 'u', 'e'] ∧ b = true) ∨ (text = ['f', 'a', 'l', 's', 'e'] ∧ b = false) ∨
    ∃ n, IntText text n ∧ b = decide (n ≠ 0)

/-- A lookup does not throw, and answers what the entry of the key denotes.
Where there is no such entry, or one that denotes nothing, any answer will
do. -/
def ReadsWritten {α : Type} (get : IniReader → Text → Text → α → Option α)
    (Denotes : Text → α → Prop) (conf : Conf) (file appName keyName : Text) : Prop :=
  ∀ defaultValue, ∃ x, get (new.openFile file).1 appName keyName defaultValue = some x ∧
    ∀ e, conf.entry appName keyName = some e → ∀ w, Denotes e.value w → x = w

/-! ## Lines

The line of an entry, as a lookup takes it apart. -/

namespace Entry

variable {e : Entry}

/-- A character that is in neither the key nor a blank. -/
theorem Wf.left_ne (he : e.Wf) (c : Char) (hkey : c ∉ e.key) (hblank : isBlank c = false) :
    c ∉ e.left := by
  rw [left, List.mem_append, not_or]
  refine ⟨hkey, fun hc => ?_⟩
  have := List.all_eq_true.mp he.blanks.1 c hc
  rw [hblank] at this
  cases this

/-- The value of the line of an entry, with its blanks. -/
theorem Wf.valueOf_line (he : e.Wf) : valueOf e.line = e.right :=
  valueOf_append (he.left_ne '=' he.sign (by decide))

/-- The key of the line of an entry, with its blanks. -/
theorem Wf.hasKey_line (he : e.Wf) (keyName : Text) :
    HasKey keyName e.line ↔ e.left = cStr keyName := by
  rw [HasKey, line, keyOf_append (he.left_ne '=' he.sign (by decide)),
    cStr_of_not_mem (he.left_ne _ he.null (by decide))]

/-- The line of an entry is no section line, and not empty. -/
theorem Wf.head_line (he : e.Wf) : e.line.head? ≠ some '[' ∧ e.line ≠ [] := by
  obtain ⟨c, key, hkey⟩ := List.exists_cons_of_ne_nil he.key.1
  have hhead := he.bracket
  simp [line, left, hkey] at hhead ⊢
  exact hhead

/-- A text without blanks at its end is what stands before the sign of the
entries with that key and no blank.  The lookups of the source ask for such
texts. -/
theorem left_eq_iff (he : e.Wf) {keyName : Text} (hkey : Trimmed keyName) :
    e.left = keyName ↔ e.key = keyName ∧ e.keyBlanks = [] := by
  constructor
  · rintro rfl
    rcases List.eq_nil_or_concat e.keyBlanks with hnil | ⟨blanks, c, hlast⟩
    · simp [left, hnil]
    · have hc : isBlank c = true := List.all_eq_true.mp he.blanks.1 c (by simp [hlast])
      have hnot := hkey.2 c (by simp [left, hlast])
      rw [hc] at hnot
      cases hnot
  · rintro ⟨hkey, hblanks⟩
    rw [left, hkey, hblanks, List.append_nil]

/-- A value without blanks around it is kept as it is. -/
theorem right_eq_value (e : Entry) : e.right = e.value ↔ e.lead = [] ∧ e.trail = [] := by
  constructor
  · intro heq
    have hlength := congrArg List.length heq
    simp only [right, List.length_append] at hlength
    exact ⟨List.length_eq_zero_iff.mp (by omega), List.length_eq_zero_iff.mp (by omega)⟩
  · rintro ⟨hlead, htrail⟩
    rw [right, hlead, htrail, List.append_nil, List.nil_append]

end Entry

/-! ## What a lookup finds

From lines to entries. -/

namespace ConfSection

/-- The first entry whose line has the key. -/
def found (sec : ConfSection) (keyName : Text) : Option Entry :=
  sec.entries.find? fun e => e.left = cStr keyName

/-- A lookup in the lines of a section, by its entries. -/
theorem readLines_map {body : List (Option Entry)} (hbody : ∀ e, some e ∈ body → e.Wf)
    (keyName : Text) :
    readLines keyName (body.map lineOf) =
      if none ∈ body.takeWhile fun line => line.all fun e => e.left ≠ cStr keyName then none
      else some ((body.reduceOption.find? fun e => e.left = cStr keyName).map Entry.right) := by
  induction body with
  | nil => rfl
  | cons line body ih =>
      have hih := ih fun e he => hbody e (List.mem_cons_of_mem _ he)
      cases line with
      | none => simp [readLines, lineOf]
      | some e =>
          have he := hbody e List.mem_cons_self
          simp only [List.map_cons, lineOf, Option.elim_some, readLines, if_neg he.head_line.2,
            he.hasKey_line, he.valueOf_line, List.reduceOption_cons_of_some]
          by_cases hkey : e.left = cStr keyName
          · simp [hkey]
          · rw [if_neg hkey]
            refine hih.trans ?_
            simp [hkey]

/-- No entry has another's key, with or without blanks. -/
theorem left_eq_key_iff {sec : ConfSection} (hsec : sec.Wf) {e e' : Entry}
    (he : e ∈ sec.entries) (he' : e' ∈ sec.entries) :
    e'.left = e.key ↔ e' = e ∧ e.keyBlanks = [] := by
  have hwf : ∀ e ∈ sec.entries, e.Wf := fun e he =>
    hsec.entries e (List.reduceOption_mem_iff.mp he)
  rw [Entry.left_eq_iff (hwf e' he') (hwf e he).key.2]
  constructor
  · rintro ⟨heq, hblanks⟩
    obtain rfl := List.inj_on_of_nodup_map hsec.keys he' he heq
    exact ⟨rfl, hblanks⟩
  · rintro ⟨rfl, hblanks⟩
    exact ⟨rfl, hblanks⟩

/-- The block of a section is well formed. -/
theorem block_wf {sec : ConfSection} (hsec : sec.Wf) : sec.block.Wf := by
  refine ⟨rfl, by simp [block], fun line hline => ?_⟩
  obtain ⟨entry, hentry, rfl⟩ := List.mem_map.mp hline
  cases entry with
  | none => simp [lineOf]
  | some e => exact (hsec.entries e hentry).head_line.1

end ConfSection

namespace Conf

variable {conf : Conf} {file appName keyName : Text}

/-- The entry that a lookup finds. -/
def found (conf : Conf) (appName keyName : Text) : Option Entry :=
  (conf.sections.find? fun sec => sec.name = cStr appName).bind fun sec => sec.found keyName

/-- The lines of a file have its sections. -/
theorem sections_lines (hconf : conf.Wf) :
    (EstarGo.sections conf.lines).2 = conf.sections.map ConfSection.block := by
  have hpre : ∀ line ∈ conf.preamble.map lineOf, line.head? ≠ some '[' := by
    intro line hline
    obtain ⟨entry, hentry, rfl⟩ := List.mem_map.mp hline
    cases entry with
    | none => simp [lineOf]
    | some e => exact (hconf.preamble e hentry).head_line.1
  have hblocks : ∀ b ∈ conf.sections.map ConfSection.block, b.Wf := by
    intro b hb
    obtain ⟨sec, hsec, rfl⟩ := List.mem_map.mp hb
    exact ConfSection.block_wf (hconf.sections sec hsec)
  rw [lines, sections_render hpre hblocks, List.map_map]
  rfl

/-- The block that a lookup finds is that of the section. -/
theorem blockOf_map (hconf : ∀ sec ∈ conf.sections, sec.Wf) :
    blockOf (conf.sections.map ConfSection.block) appName =
      (conf.sections.find? fun sec => sec.name = cStr appName).map ConfSection.block := by
  have hname : ∀ sec ∈ conf.sections,
      (decide (cStr sec.block.header = bracketed appName)) = decide (sec.name = cStr appName) := by
    intro sec hsec
    have hheader : cStr sec.block.header = '[' :: sec.name ++ [']'] := by
      refine cStr_of_not_mem fun h => ?_
      simp [ConfSection.block, (hconf sec hsec).name] at h
    simp [hheader, bracketed]
  rw [blockOf, List.find?_map]
  generalize conf.sections = sections at hname
  induction sections with
  | nil => rfl
  | cons sec rest ih =>
      obtain ⟨hsec, hrest⟩ := List.forall_mem_cons.mp hname
      simp only [List.find?_cons, Function.comp_apply, hsec]
      split
      · rfl
      · exact ih hrest

/-- What a lookup in the file does. -/
theorem readBlocks_conf (hconf : conf.Wf) (hfile : getLines file = conf.lines)
    (appName keyName : Text) :
    (conf.MeetsEmpty appName keyName ∧
        readBlocks (EstarGo.sections (getLines file)).2 appName keyName = none) ∨
      (¬ conf.MeetsEmpty appName keyName ∧
        readBlocks (EstarGo.sections (getLines file)).2 appName keyName =
          some ((conf.found appName keyName).map Entry.right)) := by
  rw [hfile, sections_lines hconf, readBlocks, blockOf_map hconf.sections]
  simp only [MeetsEmpty, found]
  cases hsec : conf.sections.find? fun sec => sec.name = cStr appName with
  | none => simp
  | some sec =>
      have hentries := (hconf.sections sec (List.mem_of_find?_eq_some hsec)).entries
      simp only [Option.map_some, Option.elim_some, ConfSection.block, Option.mem_some_iff,
        exists_eq_left', Option.bind_some, ConfSection.readLines_map hentries]
      by_cases hempty : sec.MeetsEmpty keyName
      · exact .inl ⟨hempty, if_pos hempty⟩
      · exact .inr ⟨hempty, if_neg hempty⟩

/-- The entry of a key is the one that a lookup finds, unless a blank stands
before its sign. -/
theorem found_of_entry (hconf : conf.Wf) {e : Entry}
    (he : conf.entry appName keyName = some e) :
    conf.found appName keyName = if e.keyBlanks = [] then some e else none := by
  obtain ⟨sec, hsec, hfind⟩ := Option.bind_eq_some_iff.mp he
  have hmem := List.mem_of_find?_eq_some hsec
  have hwf := hconf.sections sec hmem
  obtain rfl : sec.name = appName := by simpa using List.find?_some hsec
  obtain rfl : e.key = keyName := by simpa using List.find?_some hfind
  have hein := List.mem_of_find?_eq_some hfind
  have hkey : cStr e.key = e.key :=
    cStr_of_not_mem (hwf.entries e (List.reduceOption_mem_iff.mp hein)).null
  have hleft : ∀ e' ∈ sec.entries, e'.left = e.key ↔ e' = e ∧ e.keyBlanks = [] := fun _ he' =>
    ConfSection.left_eq_key_iff hwf hein he'
  have hsection : conf.found sec.name e.key = sec.entries.find? fun e' => e'.left = e.key := by
    rw [found, cStr_of_not_mem hwf.name, hsec, Option.bind_some, ConfSection.found, hkey]
  rw [hsection]
  split_ifs with hblanks
  · cases hfound : sec.entries.find? fun e' => e'.left = e.key with
    | none =>
        have := List.find?_eq_none.mp hfound e hein
        simp [(hleft e hein).mpr ⟨rfl, hblanks⟩] at this
    | some e' =>
        have heq : e'.left = e.key := by simpa using List.find?_some hfound
        rw [((hleft e' (List.mem_of_find?_eq_some hfound)).mp heq).1]
  · refine List.find?_eq_none.mpr fun e' he' => ?_
    simpa using fun heq => hblanks ((hleft e' he').mp heq).2

end Conf

/-! ## Which lookups read what is written

The four getters, by the texts they make right. -/

section

variable {conf : Conf} {file : Text}

/-- **A getter and its texts.**  It answers what the file says exactly where it
meets no empty line and the text of the entry is one that it makes right.  The
four getters are four instances, which differ in how they go on with the
text. -/
theorem readsWritten_iff {α : Type} [Nontrivial α] {get : IniReader → Text → Text → α → Option α}
    {Denotes : Text → α → Prop} {Kept : Entry → Prop} {finish : Text → α → α}
    {appName keyName : Text} (hconf : conf.Wf) (hfile : getLines file = conf.lines)
    (hget : ∀ defaultValue, get (new.openFile file).1 appName keyName defaultValue =
      (readBlocks (sections (getLines file)).2 appName keyName).map fun text =>
        text.elim defaultValue (finish · defaultValue))
    (hkept : ∀ e : Entry, e.Wf → ∀ w, Denotes e.value w →
      ((∀ defaultValue, finish e.right defaultValue = w) ↔ Kept e)) :
    ReadsWritten get Denotes conf file appName keyName ↔
      conf.ReadableAt Denotes Kept appName keyName := by
  have hentry : ∀ e, conf.entry appName keyName = some e → e.Wf := by
    intro e he
    obtain ⟨sec, hsec, hfind⟩ := Option.bind_eq_some_iff.mp he
    have hmem := List.mem_of_find?_eq_some hfind
    exact (hconf.sections sec (List.mem_of_find?_eq_some hsec)).entries e
      (List.reduceOption_mem_iff.mp hmem)
  simp only [ReadsWritten, hget]
  rcases Conf.readBlocks_conf hconf hfile appName keyName with
    ⟨hempty, hread⟩ | ⟨hempty, hread⟩
  · -- The lookup throws.
    obtain ⟨d⟩ : Nonempty α := inferInstance
    refine iff_of_false (fun h => ?_) fun h => h.1 hempty
    obtain ⟨x, hx, -⟩ := h d
    rw [hread] at hx
    cases hx
  · simp only [hread, Option.map_some, Option.some.injEq, exists_eq_left', Conf.ReadableAt, hempty,
      not_false_eq_true, true_and]
    constructor
    · rintro h e he ⟨w, hw⟩
      have hfound := Conf.found_of_entry hconf he
      by_cases hblanks : e.keyBlanks = []
      · refine ⟨hblanks, (hkept e (hentry e he) w hw).mp fun d => ?_⟩
        rw [← h d e he w hw, hfound, if_pos hblanks]
        rfl
      · -- The key is not found, and another default than what is written is the answer.
        obtain ⟨d, hd⟩ := exists_ne w
        refine absurd (h d e he w hw) ?_
        rw [hfound, if_neg hblanks]
        exact hd
    · intro h d e he w hw
      obtain ⟨hblanks, hkeep⟩ := h e he ⟨w, hw⟩
      rw [Conf.found_of_entry hconf he, if_pos hblanks]
      exact (hkept e (hentry e he) w hw).mpr hkeep d

/-- `GetString` gives the text that is found. -/
theorem getString_eq (appName keyName defaultValue : Text) :
    (new.openFile file).1.getString appName keyName defaultValue =
      (readBlocks (sections (getLines file)).2 appName keyName).map fun text =>
        text.elim defaultValue id := by
  rw [getString_openFile]
  congr 1
  funext text
  cases text <;> rfl

/-- The typed lookups read a text that is not empty. -/
theorem getAs_eq {α : Type} (read : Text → α) (appName keyName : Text) (defaultValue : α) :
    getAs read (new.openFile file).1 appName keyName defaultValue =
      (readBlocks (sections (getLines file)).2 appName keyName).map fun text =>
        text.elim defaultValue fun str => if str ≠ [] then read str else defaultValue := by
  rw [getAs, getString_openFile, Option.map_map]
  congr 1
  funext text
  cases text <;> rfl

/-- A value that is not empty leaves a text that is not. -/
theorem right_ne_nil {e : Entry} (h : e.value ≠ []) : e.right ≠ [] := by
  simp [Entry.right, h]

theorem intText_ne_nil {text : Text} {n : ℤ} (h : IntText text n) : text ≠ [] := by
  obtain ⟨sign, digits, hne, -, rfl, -⟩ := h
  simp [hne]

theorem floatText_ne_nil {text : Text} {x : ℚ} (h : FloatText text x) : text ≠ [] := by
  obtain ⟨n, hn, rfl, -⟩ := h
  simp [Numeral.text, hn.whole.1]

theorem not_intText_word {c : Char} {text : Text} {n : ℤ} (hdigit : c.isDigit = false)
    (hplus : c ≠ '+') (hminus : c ≠ '-') : ¬ IntText (c :: text) n := by
  rintro ⟨sign, digits, hne, hdigits, heq, -⟩
  cases sign with
  | plus => exact hplus (List.cons.inj heq).1
  | minus => exact hminus (List.cons.inj heq).1
  | none =>
      rw [Sign.text, List.nil_append, ← List.append_nil digits] at heq
      exact digits_ne_cons hne hdigits hdigit heq.symm

/-- `atoi` finds no number in a word. -/
theorem atoi_word {lead rest : Text} {c : Char} (hlead : Blanks lead) (hspace : isSpace c = false)
    (hdigit : c.isDigit = false) (hplus : c ≠ '+') (hminus : c ≠ '-') :
    atoi (lead ++ c :: rest) = 0 := by
  have hread : strtolSigned (c :: rest) = 0 := by
    unfold strtolSigned
    split
    · next heq => exact absurd (List.cons.inj heq).1 hminus
    · next heq => exact absurd (List.cons.inj heq).1 hplus
    · simp [strtolDigits, hdigit]
  have hdrop : (lead ++ c :: rest).dropWhile isSpace = c :: rest := by
    refine dropWhile_blanks hlead fun d hd => ?_
    obtain rfl := Option.some.inj hd
    exact hspace
  rw [atoi, strtol, hdrop, hread]
  decide

theorem atoi_boolText {e : Entry} (he : e.Wf) {b : Bool} (hb : BoolText e.value b) :
    decide (atoi e.right ≠ 0) = b ↔ e.value ≠ ['t', 'r', 'u', 'e'] := by
  obtain ⟨-, hlead, htrail⟩ := he.blanks
  rw [Entry.right]
  rcases hb with ⟨hvalue, rfl⟩ | ⟨hvalue, rfl⟩ | ⟨n, hvalue, rfl⟩
  · rw [hvalue, List.append_assoc, List.cons_append,
      atoi_word hlead (by decide) (by decide) (by decide) (by decide)]
    decide
  · rw [hvalue, List.append_assoc, List.cons_append,
      atoi_word hlead (by decide) (by decide) (by decide) (by decide)]
    decide
  · rw [atoi_of_intText hlead hvalue htrail]
    refine iff_of_true rfl fun heq => ?_
    rw [heq] at hvalue
    exact not_intText_word (by decide) (by decide) (by decide) hvalue

/-- A number is read whatever the default is. -/
theorem number_kept {α : Type} {read : Text → α} {e : Entry} {w : α}
    (hne : e.value ≠ []) (hread : read e.right = w) :
    (∀ d, (if e.right ≠ [] then read e.right else d) = w) ↔ True := by
  refine iff_of_true (fun d => ?_) trivial
  rw [if_pos (right_ne_nil hne), hread]

/-- **Which lookups in a file of the shipped shape read what is written.** A
lookup throws where an empty line stands before the line of its key.  Any other
reads an entry whose key the sign follows at once: a text where no blank
surrounds it, a number always, and `false` and the numbers that stand for a
`bool`, but not `true`. -/
theorem lookups_iff (hconf : conf.Wf) (hfile : getLines file = conf.lines)
    (appName keyName : Text) :
    (ReadsWritten getString (fun text w => w = text) conf file appName keyName ↔
      conf.ReadableAt (fun text w => w = text) (fun e => e.lead = [] ∧ e.trail = [])
        appName keyName) ∧
    (ReadsWritten getInt IntText conf file appName keyName ↔
      conf.ReadableAt IntText (fun _ => True) appName keyName) ∧
    (ReadsWritten getFloat FloatText conf file appName keyName ↔
      conf.ReadableAt FloatText (fun _ => True) appName keyName) ∧
    (ReadsWritten getBool BoolText conf file appName keyName ↔
      conf.ReadableAt BoolText (fun e => e.value ≠ ['t', 'r', 'u', 'e']) appName keyName) := by
  refine ⟨?_, ?_, ?_, ?_⟩
  · refine readsWritten_iff hconf hfile (fun d => getString_eq appName keyName d) ?_
    rintro e - w rfl
    exact forall_const Text |>.trans e.right_eq_value
  · refine readsWritten_iff hconf hfile (fun d => getAs_eq atoi appName keyName d) ?_
    intro e he w hw
    exact number_kept (intText_ne_nil hw) (atoi_of_intText he.blanks.2.1 hw he.blanks.2.2)
  · refine readsWritten_iff hconf hfile (fun d => getAs_eq atof appName keyName d) ?_
    intro e he w hw
    exact number_kept (floatText_ne_nil hw) (atof_of_floatText he.blanks.2.1 hw he.blanks.2.2)
  · refine readsWritten_iff hconf hfile (fun d => getAs_eq _ appName keyName d) ?_
    intro e he w hw
    have hne : e.value ≠ [] := by
      rcases hw with ⟨h, -⟩ | ⟨h, -⟩ | ⟨n, h, -⟩
      · simp [h]
      · simp [h]
      · exact intText_ne_nil h
    rw [← atoi_boolText he hw]
    simp only [if_pos (right_ne_nil hne), forall_const]

/-- A section `[S]` with the entry `k = 3`. -/
def spacedConf : Conf :=
  ⟨[], [⟨['S'], [some ⟨['k'], [' '], [' '], ['3'], []⟩]⟩]⟩

/-- Its file, with blanks around the sign. -/
def spacedFile : Text := ['[', 'S', ']', '\n', 'k', ' ', '=', ' ', '3', '\n']

theorem spacedConf_wf : spacedConf.Wf := by
  have hentry : (⟨['k'], [' '], [' '], ['3'], []⟩ : Entry).Wf :=
    ⟨by simp [Trimmed, isBlank], by simp, by simp, by simp, by decide, by simp [Trimmed, isBlank]⟩
  refine ⟨by simp [spacedConf], ?_, by simp [spacedConf]⟩
  intro sec hsec
  obtain rfl : sec = ⟨['S'], [some ⟨['k'], [' '], [' '], ['3'], []⟩]⟩ := by
    simpa [spacedConf] using hsec
  refine ⟨by simp, ?_, by simp [ConfSection.entries]⟩
  rintro e he
  obtain rfl : e = ⟨['k'], [' '], [' '], ['3'], []⟩ := by simpa using he
  exact hentry

theorem spacedFile_lines : getLines spacedFile = spacedConf.lines := by decide

/-- The lookup of an integer in it. -/
theorem lookups_iff_spaced :
    ReadsWritten getInt IntText spacedConf spacedFile ['S'] ['k'] ↔
      spacedConf.ReadableAt IntText (fun _ => True) ['S'] ['k'] :=
  (lookups_iff spacedConf_wf spacedFile_lines ['S'] ['k']).2.1

/-- With blanks around the sign, a lookup of `k` does not find the line
`k = 3`. -/
theorem not_lookups_readWritten :
    ¬ ∀ (conf : Conf) (file : Text), conf.Wf → getLines file = conf.lines →
      ∀ appName keyName,
        ReadsWritten getString (fun text w => w = text) conf file appName keyName ∧
        ReadsWritten getInt IntText conf file appName keyName ∧
        ReadsWritten getFloat FloatText conf file appName keyName ∧
        ReadsWritten getBool BoolText conf file appName keyName := by
  intro h
  obtain ⟨-, hint, -⟩ := h spacedConf spacedFile spacedConf_wf spacedFile_lines ['S'] ['k']
  obtain ⟨x, hx, hread⟩ := hint 7
  have hseven : getInt (new.openFile spacedFile).1 ['S'] ['k'] 7 = some 7 := by decide
  obtain rfl : x = 7 := Option.some.inj (hx.symm.trans hseven)
  have hthree : IntText ['3'] 3 :=
    ⟨.none, ['3'], by simp, by decide, rfl, by decide, by decide, by decide⟩
  exact absurd (hread _ rfl 3 hthree) (by decide)

end

end EstarGo
