import EstarGo.Gtp.Safety

/-!
# The hash of a command

`process_cmd` switches on a hash of the first token.  The token is hashed by
`hash_`, a loop that changes one variable twice for each character; the labels
of the switch are hashed by the compiler with `hash_compile_time`, a recursion
with an accumulator and the operands the other way round.  Here both are
embedded on the characters as the machine has them: signed bytes in memory, from
a pointer on.

## Main definitions

* `CString.hash_`, `CString.hashCompileTime` — the loop and the recursion.
* `CString.switch` — the switch of `process_cmd`.

## Main results

* `CString.dispatch_chars`: the dispatch of a session is this switch.
* `command_reaches_handler`: both hashes agree, and a command reaches its
  handler.

## Design notes

**Memory and texts.**  A session reads texts, whose characters are numbers from
0 on.  In memory a character is a signed byte, which is widened with its sign
before it is mixed in, and behind the string there is other memory.  The two are
translated into each other here, for characters of one byte.
-/

namespace EstarGo

/-! ## Strings in memory

A string is the memory from a pointer on: its characters, the terminator, and
what follows. -/

namespace CString

/-- A `char` beside a `hash_t`: promoted to `int`, with its sign, and converted.
A byte above 127 therefore sets all the upper bits. -/
def widen (c : Int8) : UInt64 := UInt64.ofInt c.toInt32.toInt

/-- `hash_`, as a loop that ends at the terminator. -/
def hash_ (str : List Int8) : UInt64 := Id.run do
  let mut ret := hashBasis
  for c in str do
    if c = 0 then break
    ret := ret ^^^ widen c
    ret := ret * hashPrime
  return ret

/-- `hash_compile_time`, as a recursion that ends at the terminator.  It
combines in the other order, which makes no difference. -/
def hashCompileTime : List Int8 → UInt64 → UInt64
  | [], lastValue => lastValue
  | c :: str, lastValue =>
      if c ≠ 0 then hashCompileTime str ((widen c ^^^ lastValue) * hashPrime) else lastValue

/-- The characters of a line or a token, as a session reads them. -/
def chars (str : List Int8) : List Char := str.map fun b => Char.ofNat b.toUInt8.toNat

/-- The characters of a text in memory, as signed bytes. -/
def bytes (text : List Char) : List Int8 := text.map fun c => Int8.ofInt (charValue c)

/-- The memory of a string literal, with its terminator. -/
def literal (text : List Char) : List Int8 := bytes text ++ [0]

/-- The switch of `process_cmd`: the hash of `cmd_name` is compared with those
of the labels.  The labels are string literals, hashed when the program is
compiled. -/
def switch (cmdName : List Int8) : Option Command :=
  Command.all.find? fun c => hashCompileTime (literal c.text) hashBasis = hash_ cmdName

/-! ## Two hashes of one string

By induction on the string, from any value of the hash so far. -/

/-- The loop agrees with the recursion from every value of `ret`. -/
theorem hash_eq_hashCompileTime (str : List Int8) : hash_ str = hashCompileTime str hashBasis := by
  unfold hash_
  generalize hashBasis = ret
  induction str generalizing ret with
  | nil => rfl
  | cons c str ih =>
      by_cases terminator : c = 0
      · simp [hashCompileTime, terminator]
      · -- the loop has the operands of the exclusive or the other way round
        have step := ih ((ret ^^^ widen c) * hashPrime)
        rw [UInt64.xor_comm ret] at step
        simpa [hashCompileTime, terminator, UInt64.xor_comm ret] using step

/-- Up to the terminator, each character is mixed in. -/
theorem hashCompileTime_append {str : List Int8} (ends : 0 ∉ str) (rest : List Int8)
    (last : UInt64) : hashCompileTime (str ++ 0 :: rest) last =
      str.foldl (fun ret c => (ret ^^^ widen c) * hashPrime) last := by
  induction str generalizing last with
  | nil => simp [hashCompileTime]
  | cons c str ih =>
      obtain ⟨hc, hstr⟩ := List.ne_and_not_mem_of_not_mem_cons ends
      rw [List.cons_append, hashCompileTime, if_pos (Ne.symm hc), ih hstr, List.foldl_cons,
        UInt64.xor_comm]

/-! ## The switch of a session

From texts to memory, where the labels are. -/

/-- The character is one byte, and not the terminator. -/
def OneByte (c : Char) : Prop := 0 < c.toNat ∧ c.toNat < 256

instance (c : Char) : Decidable (OneByte c) :=
  inferInstanceAs (Decidable (0 < c.toNat ∧ c.toNat < 256))

/-- A byte read as a character has its code. -/
theorem toNat_ofNat_byte (b : Int8) : (Char.ofNat b.toUInt8.toNat).toNat = b.toUInt8.toNat := by
  have hb : b.toUInt8.toNat < 256 := b.toUInt8.toNat_lt
  rw [Char.ofNat, dif_pos (.inl (by omega))]
  rfl

/-- A byte is read with its sign. -/
theorem charValue_ofNat_byte (b : Int8) : charValue (Char.ofNat b.toUInt8.toNat) = b.toInt := by
  rw [charValue, toNat_ofNat_byte, ← Int8.toInt_toBitVec, BitVec.toInt_eq_toNat_cond]
  change (if b.toBitVec.toNat < 128 then _ else _) = _
  split <;> split <;> first | rfl | omega

/-- Reading a string and writing it again. -/
theorem bytes_chars (str : List Int8) : bytes (chars str) = str := by
  simp [bytes, chars, Function.comp_def, charValue_ofNat_byte]

/-- What is read has one byte. -/
theorem oneByte_chars {str : List Int8} (ends : 0 ∉ str) : ∀ c ∈ chars str, OneByte c := by
  intro c hc
  obtain ⟨b, hb, rfl⟩ := List.mem_map.mp hc
  rw [OneByte, toNat_ofNat_byte]
  refine ⟨Nat.pos_of_ne_zero fun zero => ends ?_, b.toUInt8.toNat_lt⟩
  have hzero : b = 0 := Int8.toBitVec.inj (BitVec.eq_of_toNat_eq zero)
  exact hzero ▸ hb

/-- A character of one byte has the value of a signed byte. -/
theorem charValue_bounds {c : Char} (h : OneByte c) : -128 ≤ charValue c ∧ charValue c < 128 := by
  obtain ⟨-, hlt⟩ := h
  unfold charValue
  split <;> omega

theorem toInt_ofInt_charValue {c : Char} (h : OneByte c) :
    (Int8.ofInt (charValue c)).toInt = charValue c :=
  Int8.toInt_ofInt_of_le (charValue_bounds h).1 (charValue_bounds h).2

/-- Writing a text and reading it again. -/
theorem chars_bytes {text : List Char} (h : ∀ c ∈ text, OneByte c) :
    chars (bytes text) = text := by
  rw [chars, bytes, List.map_map]
  refine (List.map_congr_left fun c hc => ?_).trans (List.map_id text)
  -- both characters are below 256 and have one value
  have value := (charValue_ofNat_byte (Int8.ofInt (charValue c))).trans
    (toInt_ofInt_charValue (h c hc))
  have hlt := (h c hc).2
  have hlt' := (Int8.ofInt (charValue c)).toUInt8.toNat_lt
  rw [← toNat_ofNat_byte] at hlt'
  refine Char.toNat_inj.mp ?_
  simp only [Function.comp_apply, id_eq]
  generalize Char.ofNat (Int8.ofInt (charValue c)).toUInt8.toNat = d at *
  unfold charValue at value
  split at value <;> split at value <;> omega

/-- Such a text has no terminator in it. -/
theorem zero_notMem_bytes {text : List Char} (h : ∀ c ∈ text, OneByte c) : 0 ∉ bytes text := by
  intro hzero
  obtain ⟨c, hc, heq⟩ := List.mem_map.mp hzero
  have hval := toInt_ofInt_charValue (h c hc)
  rw [heq] at hval
  have hpos := (h c hc).1
  have hlt := (h c hc).2
  simp only [charValue] at hval
  split at hval <;> simp at hval <;> omega

/-- The hash of the text of a session is the hash of its bytes. -/
theorem hashCompileTime_bytes {text : List Char} (h : ∀ c ∈ text, OneByte c) (rest : List Int8) :
    hashCompileTime (bytes text ++ 0 :: rest) hashBasis = EstarGo.hash_ text := by
  rw [hashCompileTime_append (zero_notMem_bytes h), bytes, List.foldl_map, EstarGo.hash_]
  refine List.foldl_ext _ _ _ fun ret c hc => ?_
  rw [widen, Int8.toInt_toInt32, toInt_ofInt_charValue (h c hc)]

/-- The names of the commands are such texts. -/
theorem oneByte_text (c : Command) : ∀ ch ∈ c.text, OneByte ch := by
  have all : c.text.all (fun ch => decide (OneByte ch)) = true := by cases c <;> decide
  simpa only [List.all_eq_true, decide_eq_true_eq] using all

/-- **The dispatch of a session is the switch on the bytes of the token**,
whatever follows its terminator.  The session works on characters, and a token
in memory is bytes. -/
theorem dispatch_chars {tok : List Int8} (ends : 0 ∉ tok) (rest : List Int8) :
    dispatch (chars tok) = switch (tok ++ 0 :: rest) := by
  have token : hash_ (tok ++ 0 :: rest) = EstarGo.hash_ (chars tok) := by
    rw [hash_eq_hashCompileTime, ← hashCompileTime_bytes (oneByte_chars ends) rest, bytes_chars]
  unfold dispatch switch literal
  rw [token]
  congr 1
  funext c
  rw [hashCompileTime_bytes (oneByte_text c)]

end CString

/-! ## The handlers of the commands

The last step: the handler that the switch chooses. -/

namespace GTP

variable {B K : Type} [Field K] [LinearOrder K] [FloorRing K] (P : Pachi B) (cfg : GtpConfig B K)
  (g : GTP B K)

/-- The handler that the switch has for a command. -/
def handler (l : CommandLine K) : Command → Except Fault (GTP B K)
  | .play => g.processCmdPlay P cfg (words l.text).tail l.pondered
  | .genmove => g.processCmdGenmove P cfg (words l.text).tail l.pondered l.searched
  | .timeLeft => g.processCmdTimeleft (words l.text).tail
  | .quit => g.processCmdQuit P cfg l.pondered
  | .name => .ok (g.processCmdName cfg)
  | .protocolVersion => .ok g.processCmdProtocolversion
  | .version => .ok (g.processCmdVersion cfg)
  | .listCommands => .ok g.processCmdListcommands
  | .boardsize => .ok g.processCmdBoardsize
  | .clearBoard => g.processCmdClearboard P cfg l.pondered
  | .komi => .ok g.processCmdKomi
  | .finalScore => g.processCmdFinalscore P cfg
  | .timeSettings => .ok g.processCmdTimesettings
  | .showBoard => g.processCmdShowboard cfg

end GTP

section

variable {B K : Type} [Field K] [LinearOrder K] [FloorRing K] {P : Pachi B} {cfg : GtpConfig B K}

/-- A line whose first token is the name of a command is handled by the handler
of its label. -/
theorem processCmd_eq_handler {g : GTP B K} {l : CommandLine K} {c : Command}
    (first : (words l.text).head? = some c.text) : g.processCmd P cfg l = g.handler P cfg l c := by
  have named : Command.ofText c.text = some c := by cases c <;> decide
  obtain ⟨dispatched, scanned⟩ := dispatch_of_ofText named
  unfold GTP.processCmd
  rw [first, scanned, ok_bind]
  dsimp only
  rw [dispatched]
  cases c <;> rfl

end

variable {B K : Type} [Field K] [LinearOrder K] [FloorRing K]

/-- **A command reaches its handler.**  The loop and the recursion hash every
string alike, the dispatch of a session is the switch between the two on the
bytes of the token, and a line whose first token is the name of a command is
handled by the handler of the command. -/
theorem command_reaches_handler (P : Pachi B) (cfg : GtpConfig B K) :
    (∀ str : List Int8, CString.hash_ str = CString.hashCompileTime str hashBasis) ∧
      (∀ tok rest : List Int8, 0 ∉ tok →
        dispatch (CString.chars tok) = CString.switch (tok ++ 0 :: rest)) ∧
      ∀ (g : GTP B K) (line : List Int8) (pondered searched : List (Action K)) (c : Command),
        (words (CString.chars line)).head? = some c.text →
          CString.switch (CString.literal c.text) = some c ∧
            g.processCmd P cfg ⟨CString.chars line, pondered, searched⟩ =
              g.handler P cfg ⟨CString.chars line, pondered, searched⟩ c := by
  refine ⟨CString.hash_eq_hashCompileTime, fun tok rest ends => CString.dispatch_chars ends rest,
    fun g line pondered searched c first => ⟨?_, processCmd_eq_handler first⟩⟩
  have texts := CString.oneByte_text c
  rw [CString.literal, ← CString.dispatch_chars (CString.zero_notMem_bytes texts),
    CString.chars_bytes texts]
  exact dispatch_text c

/-- A token with a byte above 127 is no command, and `" name x"` is answered by
its handler. -/
theorem command_reaches_handler_name :
    CString.switch [110, -61, 0, 7] = none ∧
      newSession.processCmd pachi shippedGtp ⟨" name x\n".toList, [], []⟩ =
        .ok (newSession.processCmdName shippedGtp) := by
  obtain ⟨-, same, handled⟩ := command_reaches_handler pachi shippedGtp
  refine ⟨(same [110, -61] [7] (by decide)).symm.trans (by decide +kernel), ?_⟩
  exact (handled newSession (CString.bytes " name x\n".toList) [] [] .name
    (by decide +kernel)).2

end EstarGo
