import Mathlib.Data.List.Basic
import WorkflowDag.Proofs.TextLines
import WorkflowDag.Shell.Word

/-!
# Reading shell lines

A reader of the part of the shell language that commands are written in: words between blanks,
single quotes, backslashes, the operators `&&` and `;`, and `>&`.  Whatever else means something to
a shell is refused, so a line that is read holds it in quotes only.

Each unit takes the reader one step on.  A value that has been quoted goes on with the word in which
it stands by exactly its own units (`read_quote`).  So a written command is read as its own words
(`read_write`), and a sequence of commands as these commands (`readCommands_writeSequence`).
-/

namespace WorkflowDag
namespace Shell

/-- A token of a shell line. -/
inductive Token where
  | word (text : String)
  | andIf
  | semicolon
  | duplicate
deriving DecidableEq, Repr

/-- What the units read so far leave open. -/
inductive Mode where
  | plain
  | quoted
  | escaped
  | ampersand
  | redirect
deriving DecidableEq, Repr

/-- The tokens read so far, the word that has been begun, and what is open. -/
structure Reader where
  tokens : List Token
  word? : Option (List Char)
  mode : Mode
deriving DecidableEq, Repr

/-- The units that mean something to a shell where they are not quoted. -/
def active : List Char :=
  [' ', '\t', '\n', '\x27', '\x22', '\\', '&', ';', '|', '<', '>', '(', ')', '$', '\x60', '*', '?',
    '[', ']', '\x7b', '\x7d', '#', '~', '!']

namespace Reader

/-- The word in progress goes on by a unit; where there is none, it begins. -/
def add (r : Reader) (c : Char) : Reader :=
  { r with word? := some (r.word?.getD [] ++ [c]) }

/-- The word in progress ends. -/
def endWord (r : Reader) : Reader :=
  { r with
    tokens := r.tokens ++ r.word?.toList.map fun cs => .word (String.ofList cs)
    word? := none }

/-- Reads a unit. -/
def step (r : Reader) (c : Char) : Option Reader :=
  match r.mode with
  | .quoted => some (if c = '\x27' then { r with mode := .plain } else r.add c)
  -- A line that ends in a backslash goes on with the next one.
  | .escaped =>
    some (if c = '\n' then { r with mode := .plain } else { r.add c with mode := .plain })
  | .ampersand =>
    if c = '&' then some ⟨r.tokens ++ [.andIf], none, .plain⟩ else none
  | .redirect =>
    if c = '&' then some ⟨r.tokens ++ [.duplicate], none, .plain⟩ else none
  | .plain =>
    if c ∉ active then some (r.add c)
    else if c = ' ' ∨ c = '\t' then some r.endWord
    else if c = '\x27' then some ⟨r.tokens, some (r.word?.getD []), .quoted⟩
    else if c = '\\' then some { r with mode := .escaped }
    else if c = '&' then some { r.endWord with mode := .ampersand }
    else if c = ';' then some ⟨r.endWord.tokens ++ [.semicolon], none, .plain⟩
    else if c = '>' ∧ r.word? = none then some { r with mode := .redirect }
    else none

/-- Reads units one after the other. -/
def read (r : Reader) (cs : List Char) : Option Reader :=
  cs.foldlM step r

/-- The tokens of a line that has been read to its end. -/
def finish (r : Reader) : Option (List Token) :=
  if r.mode = .plain then some r.endWord.tokens else none

end Reader

/-- The tokens of a line. -/
def tokens? (line : String) : Option (List Token) :=
  (Reader.read ⟨[], none, .plain⟩ line.toList).bind Reader.finish

/-- The word in front of the first command. -/
def addWord (text : String) : List (List String) → List (List String)
  | [] => [[text]]
  | command :: rest => (text :: command) :: rest

/-- The commands between the tokens `&&`, where there are no other operators. -/
def commandsOf : List Token → Option (List (List String))
  | [] => some [[]]
  | .word text :: rest => (commandsOf rest).map (addWord text)
  | .andIf :: rest => (commandsOf rest).map ([] :: ·)
  | _ => none

/-- The commands of a line, each with its words. -/
def readCommands (line : String) : Option (List (List String)) :=
  (tokens? line).bind commandsOf

namespace Reader

theorem read_append {r next : Reader} {front : List Char} (hFront : r.read front = some next)
    (rest : List Char) : r.read (front ++ rest) = next.read rest := by
  unfold read at hFront ⊢
  rw [List.foldlM_append, hFront]
  rfl

theorem read_cons {r next : Reader} {c : Char} (hStep : r.step c = some next) (rest : List Char) :
    r.read (c :: rest) = next.read rest := by
  unfold read
  rw [List.foldlM_cons, hStep]
  rfl

section Quoting

variable (found : List Token)

/-- A safe unit means nothing to a shell. -/
theorem notMem_active {c : Char} (hSafe : isSafe c = true) : c ∉ active := by
  intro hMem
  have hActive : active.all (fun c => !isSafe c) = true := rfl
  have hUnsafe := List.all_eq_true.mp hActive c hMem
  rw [hSafe] at hUnsafe
  cases hUnsafe

theorem read_safe {cs : List Char} (hSafe : ∀ c ∈ cs, isSafe c = true) (hSome : cs ≠ []) :
    ∀ word?, Reader.read ⟨found, word?, .plain⟩ cs =
      some ⟨found, some (word?.getD [] ++ cs), .plain⟩ := by
  induction cs with
  | nil => exact absurd rfl hSome
  | cons c rest ih =>
      intro word?
      obtain ⟨hFirst, hRest⟩ := List.forall_mem_cons.mp hSafe
      have hStep : Reader.step ⟨found, word?, .plain⟩ c =
          some ⟨found, some (word?.getD [] ++ [c]), .plain⟩ :=
        if_pos (notMem_active hFirst)
      rw [read_cons hStep]
      cases rest with
      | nil => rfl
      | cons next others =>
          rw [ih hRest (List.cons_ne_nil _ _), Option.getD_some, List.append_assoc,
            List.singleton_append]

/-- Between single quotes, escaped units are read as what they stand for. -/
theorem read_escapeUnits (cs : List Char) :
    ∀ begun, Reader.read ⟨found, some begun, .quoted⟩ (escapeUnits cs) =
      some ⟨found, some (begun ++ cs), .quoted⟩ := by
  induction cs with
  | nil =>
      intro begun
      rw [List.append_nil]
      rfl
  | cons c rest ih =>
      intro begun
      rw [escapeUnits, List.flatMap_cons]
      by_cases hQuote : c = '\x27'
      · subst hQuote
        -- The quotes are closed, a quote follows a backslash, and they are opened again.
        have hEscaped : Reader.read ⟨found, some begun, .quoted⟩ escapedQuote =
            some ⟨found, some (begun ++ ['\x27']), .quoted⟩ := rfl
        rw [if_pos rfl, read_append hEscaped]
        rw [show begun ++ '\x27' :: rest = begun ++ ['\x27'] ++ rest by simp]
        exact ih _
      · have hStep : Reader.step ⟨found, some begun, .quoted⟩ c =
            some ⟨found, some (begun ++ [c]), .quoted⟩ :=
          congrArg some (if_neg hQuote)
        rw [if_neg hQuote, List.singleton_append, read_cons hStep]
        rw [show begun ++ c :: rest = begun ++ [c] ++ rest by simp]
        exact ih _

/-- A quoted value goes on with the word in progress by its own units. -/
theorem read_quote (value : String) (word? : Option (List Char)) :
    Reader.read ⟨found, word?, .plain⟩ (quote value).toList =
      some ⟨found, some (word?.getD [] ++ value.toList), .plain⟩ := by
  unfold quote
  split
  next hBare =>
    exact read_safe found (List.all_eq_true.mp hBare.2) hBare.1 word?
  next =>
    have hUnits : ("'" ++ escape value ++ "'").toList =
        '\x27' :: (escapeUnits value.toList ++ ['\x27']) := by
      simp [escape]
    have hOpen : Reader.step ⟨found, word?, .plain⟩ '\x27' =
        some ⟨found, some (word?.getD []), .quoted⟩ := rfl
    rw [hUnits, read_cons hOpen, read_append (read_escapeUnits found value.toList _)]
    rfl

end Quoting

end Reader

namespace Word

/-- The word as a shell reads it. -/
def text : Word → String
  | fixed text => text
  | value text => text
  | flag name text => "--" ++ name ++ "=" ++ text

/-- What is fixed in the word means nothing to a shell. -/
def isPlain : Word → Bool
  | fixed text => !text.toList.isEmpty && text.toList.all isSafe
  | value _ => true
  | flag name _ => name.toList.all isSafe

end Word

/-- Behind the tokens found so far, the text is read as these tokens. -/
def Reads (found : List Token) (text : String) (tokens : List Token) : Prop :=
  ∃ r, Reader.read ⟨found, none, .plain⟩ text.toList = some r ∧
    r.endWord = ⟨found ++ tokens, none, .plain⟩

/-- The tokens of a sequence of commands. -/
def sequenceTokens : List (List String) → List Token
  | [] => []
  | [command] => command.map .word
  | command :: rest => command.map .word ++ .andIf :: sequenceTokens rest

section Writing

variable {found tokens more : List Token} {text other : String}

theorem Reads.tokens?_eq (hReads : Reads [] text tokens) : tokens? text = some tokens := by
  obtain ⟨r, hRead, hEnd⟩ := hReads
  have hMode : r.mode = .plain := congrArg Reader.mode hEnd
  rw [tokens?, hRead, Option.bind_some, Reader.finish, if_pos hMode, hEnd, List.nil_append]

theorem reads_word {w : Word} (hPlain : w.isPlain = true) :
    Reads found w.write [.word w.text] := by
  have hEnd : ∀ text : String, (Reader.mk found (some text.toList) .plain).endWord =
      ⟨found ++ [.word text], none, .plain⟩ := by
    intro text
    simp [Reader.endWord]
  cases w with
  | fixed text =>
      obtain ⟨hSome, hSafe⟩ := Bool.and_eq_true_iff.mp hPlain
      have hUnits : text.toList ≠ [] := by simpa using hSome
      exact ⟨_, Reader.read_safe found (List.all_eq_true.mp hSafe) hUnits none, hEnd text⟩
  | value text => exact ⟨_, Reader.read_quote found text none, hEnd text⟩
  | flag name text =>
      -- The name begins the word, and the quoted value goes on with it.
      have hUnits : ("--" ++ name ++ "=" ++ quote text).toList =
          ("--" ++ name ++ "=").toList ++ (quote text).toList := by
        simp
      have hName : ∀ c ∈ ("--" ++ name ++ "=").toList, isSafe c = true := by
        simp only [String.toList_append, List.forall_mem_append]
        exact ⟨⟨Text.forall_units rfl, List.all_eq_true.mp hPlain⟩, Text.forall_units rfl⟩
      have hSome : ("--" ++ name ++ "=").toList ≠ [] := by
        simp
      refine ⟨_, ?_, hEnd (Word.flag name text).text⟩
      show Reader.read _ ("--" ++ name ++ "=" ++ quote text).toList = _
      rw [hUnits, Reader.read_append (Reader.read_safe found hName hSome none),
        Reader.read_quote]
      simp [Word.text]

/-- Texts with a space between them are read one after the other. -/
theorem Reads.space (hFirst : Reads found text tokens)
    (hSecond : Reads (found ++ tokens) other more) :
    Reads found (text ++ " " ++ other) (tokens ++ more) := by
  obtain ⟨r, hRead, hEnd⟩ := hFirst
  obtain ⟨last, hLast, hLastEnd⟩ := hSecond
  have hMode : r.mode = .plain := congrArg Reader.mode hEnd
  have hSpace : r.step ' ' = some ⟨found ++ tokens, none, .plain⟩ := by
    rw [← hEnd, Reader.step, hMode]
    rfl
  refine ⟨last, ?_, ?_⟩
  · rw [String.toList_append, String.toList_append, List.append_assoc, Reader.read_append hRead]
    exact (Reader.read_cons hSpace _).trans hLast
  · rw [hLastEnd, List.append_assoc]

/-- So are texts with `&&` between them. -/
theorem Reads.andIf (hFirst : Reads found text tokens)
    (hSecond : Reads (found ++ tokens ++ [.andIf]) other more) :
    Reads found (text ++ " && " ++ other) (tokens ++ .andIf :: more) := by
  have hOperator : Reads (found ++ tokens) ("&& " ++ other) (.andIf :: more) := by
    obtain ⟨last, hLast, hLastEnd⟩ := hSecond
    have hAnd : Reader.read ⟨found ++ tokens, none, .plain⟩ ['&', '&', ' '] =
        some ⟨found ++ tokens ++ [.andIf], none, .plain⟩ := by
      simp [Reader.read, Reader.step, Reader.endWord, active]
    refine ⟨last, ?_, ?_⟩
    · rw [String.toList_append]
      exact (Reader.read_append hAnd _).trans hLast
    · rw [hLastEnd, List.append_assoc, List.singleton_append]
  have hText : text ++ " && " ++ other = text ++ " " ++ ("&& " ++ other) :=
    String.toList_injective (by simp)
  rw [hText]
  exact hFirst.space hOperator

/-- A written command is read as its words. -/
theorem reads_command {command : Command} (hPlain : command.all Word.isPlain = true) :
    ∀ found, Reads found command.write ((command.map Word.text).map .word) := by
  induction command with
  | nil =>
      intro found
      exact ⟨_, rfl, rfl⟩
  | cons w rest ih =>
      intro found
      obtain ⟨hFirst, hRest⟩ := Bool.and_eq_true_iff.mp hPlain
      cases rest with
      | nil => exact reads_word hFirst
      | cons next others => exact (reads_word hFirst).space (ih hRest _)

/-- A written sequence of commands is read as these commands. -/
theorem reads_sequence {commands : List Command}
    (hPlain : ∀ command ∈ commands, command.all Word.isPlain = true) :
    ∀ found, Reads found (writeSequence commands)
      (sequenceTokens (commands.map fun command => command.map Word.text)) := by
  induction commands with
  | nil =>
      intro found
      exact ⟨_, rfl, rfl⟩
  | cons command rest ih =>
      intro found
      obtain ⟨hFirst, hRest⟩ := List.forall_mem_cons.mp hPlain
      cases rest with
      | nil => exact reads_command hFirst found
      | cons next others => exact (reads_command hFirst found).andIf (ih hRest _)

end Writing

section Commands

theorem commandsOf_words (command : List String) (rest : List Token) :
    commandsOf (command.map .word ++ .andIf :: rest) = (commandsOf rest).map (command :: ·) := by
  induction command with
  | nil => rfl
  | cons text others ih =>
      rw [List.map_cons, List.cons_append, commandsOf, ih, Option.map_map]
      rfl

theorem commandsOf_command (command : List String) :
    commandsOf (command.map .word) = some [command] := by
  induction command with
  | nil => rfl
  | cons text others ih =>
      rw [List.map_cons, commandsOf, ih]
      rfl

theorem commandsOf_sequenceTokens {commands : List (List String)} (hSome : commands ≠ []) :
    commandsOf (sequenceTokens commands) = some commands := by
  induction commands with
  | nil => exact absurd rfl hSome
  | cons command rest ih =>
      cases rest with
      | nil => exact commandsOf_command command
      | cons next others =>
          rw [sequenceTokens, commandsOf_words, ih (List.cons_ne_nil _ _), Option.map_some]
          exact List.cons_ne_nil _ _

theorem readCommands_write {command : Command} (hPlain : command.all Word.isPlain = true) :
    readCommands command.write = some [command.map Word.text] := by
  rw [readCommands, (reads_command hPlain []).tokens?_eq, Option.bind_some, commandsOf_command]

example : readCommands "sh 'it'\\''s $HOME' a=1" = some [["sh", "it's $HOME", "a=1"]] := by
  decide +kernel

theorem readCommands_writeSequence {commands : List Command} (hSome : commands ≠ [])
    (hPlain : ∀ command ∈ commands, command.all Word.isPlain = true) :
    readCommands (writeSequence commands) =
      some (commands.map fun command => command.map Word.text) := by
  have hWords : (commands.map fun command => command.map Word.text) ≠ [] :=
    fun hNone => hSome (List.map_eq_nil_iff.mp hNone)
  rw [readCommands, (reads_sequence hPlain []).tokens?_eq, Option.bind_some,
    commandsOf_sequenceTokens hWords]

end Commands

end Shell
end WorkflowDag
