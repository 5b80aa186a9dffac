import WorkflowDag.Dag.Name
import WorkflowDag.Proofs.Lexemes

/-!
# The lines of a module

Every shape that a line of a module may have, with the words that stand in it.  A word is an
identifier, a numeral or a string literal, so whatever is not fixed in a line stays inside its word.

A shape is written on one line (`ModuleLine.unbroken`), and what has been written is read in one way
only (`ModuleLine.write_injective`): the units in front tell the shapes apart, and where a word ends
is seen from the unit behind it.
-/

namespace WorkflowDag

/-- The classes of operators. -/
inductive OperatorClass where
  | bash
  | dummy
  | branch
  | remote
deriving DecidableEq, Repr

namespace OperatorClass

/-- The module that a class is taken from. -/
def provider : OperatorClass → Import
  | bash => .bashOperator
  | dummy => .dummyOperator
  | branch => .pythonOperator
  | remote => .sshOperator

/-- The name of a class. -/
def name : OperatorClass → String
  | bash => "BashOperator"
  | dummy => "DummyOperator"
  | branch => "BranchPythonOperator"
  | remote => "SSHOperator"

/-- The class as it is called. -/
def callee (c : OperatorClass) : String :=
  c.provider.name ++ "." ++ c.name

end OperatorClass

/-- The values of the arguments of an operator. -/
inductive ArgumentValue where
  | literal (s : StringLiteral)
  /-- A function that returns a text. -/
  | returning (s : StringLiteral)
  /-- A hook for a remote host, with the user if one is named. -/
  | hook (host : StringLiteral) (user : Option StringLiteral)
deriving DecidableEq

/-- A value as it is written. -/
def ArgumentValue.text : ArgumentValue → String
  | literal s => s.text
  | returning s => String.join ["lambda: ", s.text]
  | hook host none =>
    String.join [Import.sshHook.name, ".SSHHook(remote_host=", host.text, ")"]
  | hook host (some user) =>
    String.join
      [Import.sshHook.name, ".SSHHook(remote_host=", host.text, ", username=", user.text, ")"]

/-- The modules that a value refers to. -/
def ArgumentValue.references : ArgumentValue → List Import
  | hook _ _ => [.sshHook]
  | _ => []

/-- What a comment says, on one line. -/
structure Remark where
  text : String
  unbroken : Text.Unbroken text
deriving DecidableEq

/-- The shapes of the lines of a module. -/
inductive ModuleLine where
  | blank
  | title (workflow : StringLiteral)
  | imported (i : Import)
  | noParams
  | paramsOpen
  | entry (key value : StringLiteral)
  | paramsClose
  | dagOpen
  | dagId (name : StringLiteral)
  /-- The days between runs, if there are to be any. -/
  | schedule (days : Option Numeral)
  | startDate (days : Numeral)
  | dagParams
  | dagClose
  | comment (remark : Remark)
  | definition (name : Identifier) (made : OperatorClass)
  | argument (keyword : Identifier) (value : ArgumentValue)
  | definitionClose
  | relation (first second : Identifier)
  | pass
deriving DecidableEq

namespace ModuleLine

/-- The days between runs as they are written. -/
def scheduleText : Option Numeral → String
  | none => "None"
  | some days => String.join [Import.datetime.name, ".timedelta(days=", days.text, ")"]

/-- The pieces of a line, in order. -/
def pieces : ModuleLine → List String
  | blank => []
  | title workflow => ["# DAG generated from workflow ", workflow.text, "."]
  | imported i => [i.line]
  | noParams => ["PARAMS = \x7b\x7d"]
  | paramsOpen => ["PARAMS = \x7b"]
  | entry key value => ["    ", key.text, ": ", value.text, ","]
  | paramsClose => ["\x7d"]
  | dagOpen => ["with ", Import.models.name, ".DAG("]
  | dagId name => ["    dag_id=", name.text, ","]
  | schedule days => ["    schedule_interval=", scheduleText days, ","]
  | startDate days => ["    start_date=", Import.dates.name, ".days_ago(", days.text, "),"]
  | dagParams => ["    params=PARAMS,"]
  | dagClose => [") as dag:"]
  | comment remark => ["    #", remark.text]
  | definition name made => ["    ", name.text, " = ", made.callee, "("]
  | argument keyword value => ["        ", keyword.text, "=", value.text, ","]
  | definitionClose => ["    )"]
  | relation first second => ["    ", first.text, " >> ", second.text]
  | pass => ["    pass"]

/-- A line as it is written. -/
def write (l : ModuleLine) : String :=
  String.join l.pieces

/-- The modules that a line refers to. -/
def references : ModuleLine → List Import
  | dagOpen => [.models]
  | schedule (some _) => [.datetime]
  | startDate _ => [.dates]
  | definition _ made => [made.provider]
  | argument _ value => value.references
  | _ => []

end ModuleLine

theorem ArgumentValue.unbroken (v : ArgumentValue) : Text.Unbroken v.text := by
  cases v with
  | literal s => exact s.unbroken
  | returning s => exact .cons (.ofList rfl) (.cons s.unbroken .nil)
  | hook host user =>
      cases user with
      | none =>
          exact .cons (.ofList rfl) (.cons (.ofList rfl) (.cons host.unbroken
            (.cons (.ofList rfl) .nil)))
      | some user =>
          exact .cons (.ofList rfl) (.cons (.ofList rfl) (.cons host.unbroken (.cons (.ofList rfl)
            (.cons user.unbroken (.cons (.ofList rfl) .nil)))))

theorem Import.unbroken_name (i : Import) : Text.Unbroken i.name := by
  cases i <;> exact .ofList rfl

theorem Import.unbroken_line (i : Import) : Text.Unbroken i.line := by
  have hFrom : ∀ package, Text.Unbroken package →
      Text.Unbroken ("from " ++ package ++ " import " ++ i.name) := fun package hPackage =>
    .append (.append (.append (.ofList rfl) hPackage) (.ofList rfl)) i.unbroken_name
  cases i with
  | datetime => exact .append (.ofList rfl) (.ofList rfl)
  | models => exact hFrom _ (.ofList rfl)
  | sshHook => exact hFrom _ (.ofList rfl)
  | sshOperator => exact hFrom _ (.ofList rfl)
  | bashOperator => exact hFrom _ (.ofList rfl)
  | dummyOperator => exact hFrom _ (.ofList rfl)
  | pythonOperator => exact hFrom _ (.ofList rfl)
  | dates => exact hFrom _ (.ofList rfl)

theorem OperatorClass.unbroken_callee (c : OperatorClass) : Text.Unbroken c.callee := by
  refine .append (.append c.provider.unbroken_name (.ofList rfl)) ?_
  cases c <;> exact .ofList rfl

namespace ModuleLine

theorem unbroken_scheduleText (days : Option Numeral) : Text.Unbroken (scheduleText days) := by
  cases days with
  | none => exact .ofList rfl
  | some days =>
      exact .cons (.ofList rfl) (.cons (.ofList rfl) (.cons days.unbroken
        (.cons (.ofList rfl) .nil)))

/-- Whatever is written in a line, it stays one line. -/
theorem unbroken (l : ModuleLine) : Text.Unbroken l.write := by
  cases l with
  | blank => exact .nil
  | title workflow => exact .cons (.ofList rfl) (.cons workflow.unbroken (.cons (.ofList rfl) .nil))
  | imported i => exact .cons i.unbroken_line .nil
  | noParams => exact .cons (.ofList rfl) .nil
  | paramsOpen => exact .cons (.ofList rfl) .nil
  | entry key value =>
      exact .cons (.ofList rfl) (.cons key.unbroken (.cons (.ofList rfl) (.cons value.unbroken
        (.cons (.ofList rfl) .nil))))
  | paramsClose => exact .cons (.ofList rfl) .nil
  | dagOpen => exact .cons (.ofList rfl) (.cons (.ofList rfl) (.cons (.ofList rfl) .nil))
  | dagId name => exact .cons (.ofList rfl) (.cons name.unbroken (.cons (.ofList rfl) .nil))
  | schedule days =>
      exact .cons (.ofList rfl) (.cons (unbroken_scheduleText days) (.cons (.ofList rfl) .nil))
  | startDate days =>
      exact .cons (.ofList rfl) (.cons (.ofList rfl) (.cons (.ofList rfl) (.cons days.unbroken
        (.cons (.ofList rfl) .nil))))
  | dagParams => exact .cons (.ofList rfl) .nil
  | dagClose => exact .cons (.ofList rfl) .nil
  | comment remark => exact .cons (.ofList rfl) (.cons remark.unbroken .nil)
  | definition name made =>
      exact .cons (.ofList rfl) (.cons name.unbroken (.cons (.ofList rfl)
        (.cons made.unbroken_callee (.cons (.ofList rfl) .nil))))
  | argument keyword value =>
      exact .cons (.ofList rfl) (.cons keyword.unbroken (.cons (.ofList rfl) (.cons value.unbroken
        (.cons (.ofList rfl) .nil))))
  | definitionClose => exact .cons (.ofList rfl) .nil
  | relation first second =>
      exact .cons (.ofList rfl) (.cons first.unbroken (.cons (.ofList rfl)
        (.cons second.unbroken .nil)))
  | pass => exact .cons (.ofList rfl) .nil

end ModuleLine

theorem Import.line_injective : Function.Injective Import.line := by
  intro i j hSame
  cases i <;> cases j <;> first | rfl | exact absurd hSame (by decide)

theorem OperatorClass.callee_injective : Function.Injective OperatorClass.callee := by
  intro c d hSame
  cases c <;> cases d <;> first | rfl | exact absurd hSame (by decide)

namespace ArgumentValue

/-- The unit that a value begins with. -/
def front : ArgumentValue → Char
  | literal _ => '\x22'
  | returning _ => 'l'
  | hook _ _ => 's'

theorem head?_text (v : ArgumentValue) : v.text.toList.head? = some v.front := by
  cases v with
  | literal s => simp [text, StringLiteral.text, front]
  | returning s => simp [text, front]
  | hook host user => cases user <;> simp [text, Import.name, front]

theorem hook_text_injective {host host' : StringLiteral} {user user' : Option StringLiteral}
    (hSame : (hook host user).text = (hook host' user').text) : host = host' ∧ user = user' := by
  cases user with
  | none =>
      cases user' with
      | none =>
          simp only [text, String.join_cons, String.append_right_inj] at hSame
          exact ⟨(StringLiteral.append_inj hSame).1, rfl⟩
      | some name' =>
          simp only [text, String.join_cons, String.append_right_inj] at hSame
          have hUnits := congrArg String.toList (StringLiteral.append_inj hSame).2
          simp at hUnits
  | some name =>
      cases user' with
      | none =>
          simp only [text, String.join_cons, String.append_right_inj] at hSame
          have hUnits := congrArg String.toList (StringLiteral.append_inj hSame).2
          simp at hUnits
      | some name' =>
          simp only [text, String.join_cons, String.append_right_inj] at hSame
          obtain ⟨rfl, hUser⟩ := StringLiteral.append_inj hSame
          rw [String.append_right_inj] at hUser
          obtain ⟨rfl, -⟩ := StringLiteral.append_inj hUser
          exact ⟨rfl, rfl⟩

theorem text_injective : Function.Injective text := by
  intro v v' hSame
  have hFront : v.front = v'.front := by
    have hHead := v.head?_text
    rw [hSame, v'.head?_text] at hHead
    exact (Option.some.inj hHead).symm
  cases v with
  | literal s =>
      cases v' with
      | literal s' => rw [StringLiteral.text_injective hSame]
      | returning s' => exact absurd hFront (by simp [front])
      | hook host' user' => exact absurd hFront (by simp [front])
  | returning s =>
      cases v' with
      | literal s' => exact absurd hFront (by simp [front])
      | returning s' =>
          simp only [text, String.join_cons, String.append_right_inj] at hSame
          rw [(StringLiteral.append_inj hSame).1]
      | hook host' user' => exact absurd hFront (by simp [front])
  | hook host user =>
      cases v' with
      | literal s' => exact absurd hFront (by simp [front])
      | returning s' => exact absurd hFront (by simp [front])
      | hook host' user' =>
          obtain ⟨rfl, rfl⟩ := hook_text_injective hSame
          rfl

end ArgumentValue

namespace ModuleLine

/-- What tells lines apart before the words in them are read. -/
inductive Kind where
  | blank
  | title
  | imported
  | params
  | paramsClose
  | dagOpen
  | dagClose
  | entry
  | comment
  | close
  | header
  | definition
  | relation
  | argument
  | pass

/-- The kind of a line. -/
def kind : ModuleLine → Kind
  | blank => .blank
  | title _ => .title
  | imported _ => .imported
  | noParams => .params
  | paramsOpen => .params
  | paramsClose => .paramsClose
  | dagOpen => .dagOpen
  | dagClose => .dagClose
  | entry _ _ => .entry
  | comment _ => .comment
  | definitionClose => .close
  | dagId _ => .header
  | schedule _ => .header
  | startDate _ => .header
  | dagParams => .header
  | definition _ _ => .definition
  | relation _ _ => .relation
  | argument _ _ => .argument
  | pass => .pass

/-- The kind of an indented line, seen behind the word that it may begin with. -/
def kindBehindWord : List Char → Kind
  | '\x22' :: _ => .entry
  | '#' :: _ => .comment
  | ')' :: _ => .close
  | '=' :: _ => .header
  | ' ' :: '=' :: _ => .definition
  | ' ' :: '>' :: _ => .relation
  | ' ' :: _ => .argument
  | _ => .pass

/-- The kind of a line, seen from its units. -/
def kindOf : List Char → Kind
  | [] => .blank
  | '#' :: _ => .title
  | 'P' :: _ => .params
  | '\x7d' :: _ => .paramsClose
  | 'w' :: _ => .dagOpen
  | ')' :: _ => .dagClose
  | ' ' :: cs => kindBehindWord ((cs.drop 3).dropWhile Task.isIdUnit)
  | _ => .imported

theorem dropWhile_identifier (i : Identifier) {mark : Char} (hMark : Task.isIdUnit mark = false)
    (behind : List Char) :
    (i.text.toList ++ mark :: behind).dropWhile Task.isIdUnit = mark :: behind := by
  rw [List.dropWhile_append_of_pos (isIdUnit_of_mem i.wellFormed), List.dropWhile_cons_of_neg]
  rw [hMark]
  exact Bool.false_ne_true

theorem kindOf_write (l : ModuleLine) : kindOf l.write.toList = l.kind := by
  -- Only a variable at the front of a line hides the unit that tells its kind; it is skipped whole.
  cases l with
  | blank => rfl
  | title workflow => simp [write, pieces, kindOf, kind]
  | imported i => cases i <;> simp [write, pieces, Import.line, Import.package?, kindOf, kind]
  | noParams => simp [write, pieces, kindOf, kind]
  | paramsOpen => simp [write, pieces, kindOf, kind]
  | entry key value =>
      simp [write, pieces, kindOf, kind, StringLiteral.text, Task.isIdUnit, kindBehindWord]
  | paramsClose => simp [write, pieces, kindOf, kind]
  | dagOpen => simp [write, pieces, kindOf, kind]
  | dagId name => simp [write, pieces, kindOf, kind, Task.isIdUnit, kindBehindWord]
  | schedule days => simp [write, pieces, kindOf, kind, Task.isIdUnit, kindBehindWord]
  | startDate days => simp [write, pieces, kindOf, kind, Task.isIdUnit, kindBehindWord]
  | dagParams => simp [write, pieces, kindOf, kind, Task.isIdUnit, kindBehindWord]
  | dagClose => simp [write, pieces, kindOf, kind]
  | comment remark => simp [write, pieces, kindOf, kind, Task.isIdUnit, kindBehindWord]
  | definition name made =>
      have hWord := dropWhile_identifier name (show Task.isIdUnit ' ' = false from rfl)
        ('=' :: ' ' :: (made.callee.toList ++ ['(']))
      simp [write, pieces, kindOf, kind, kindBehindWord, hWord]
  | argument keyword value => simp [write, pieces, kindOf, kind, Task.isIdUnit, kindBehindWord]
  | definitionClose => simp [write, pieces, kindOf, kind, Task.isIdUnit, kindBehindWord]
  | relation first second =>
      have hWord := dropWhile_identifier first (show Task.isIdUnit ' ' = false from rfl)
        ('>' :: '>' :: ' ' :: second.text.toList)
      simp [write, pieces, kindOf, kind, kindBehindWord, hWord]
  | pass => simp [write, pieces, kindOf, kind, Task.isIdUnit, kindBehindWord]

theorem scheduleText_injective : Function.Injective scheduleText := by
  intro days days' hSame
  have hUnits := congrArg String.toList hSame
  cases days with
  | none =>
      cases days' with
      | none => rfl
      | some days' => simp [scheduleText, Import.name] at hUnits
  | some days =>
      cases days' with
      | none => simp [scheduleText, Import.name] at hUnits
      | some days' =>
          simp only [scheduleText, String.join_cons, String.append_right_inj,
            String.append_left_inj] at hSame
          rw [Numeral.text_injective hSame]

/-- A line is read in one way only. -/
theorem write_injective : Function.Injective write := by
  intro a b hSame
  have hKind : a.kind = b.kind := by rw [← kindOf_write, ← kindOf_write, hSame]
  have hUnits := congrArg String.toList hSame
  -- Lines of different kinds differ by now; those of one kind differ by their words.
  cases a with
  | blank =>
      cases b with
      | blank => rfl
      | _ => cases hKind
  | title workflow =>
      cases b with
      | title workflow' =>
          simp only [write, pieces, String.join_cons, String.append_right_inj] at hSame
          rw [(StringLiteral.append_inj hSame).1]
      | _ => cases hKind
  | imported i =>
      cases b with
      | imported i' =>
          simp only [write, pieces, String.join_cons, String.append_left_inj] at hSame
          rw [Import.line_injective hSame]
      | _ => cases hKind
  | noParams =>
      cases b with
      | noParams => rfl
      | paramsOpen => exact absurd hSame (by decide)
      | _ => cases hKind
  | paramsOpen =>
      cases b with
      | noParams => exact absurd hSame (by decide)
      | paramsOpen => rfl
      | _ => cases hKind
  | entry key value =>
      cases b with
      | entry key' value' =>
          simp only [write, pieces, String.join_cons, String.append_right_inj] at hSame
          obtain ⟨rfl, hValue⟩ := StringLiteral.append_inj hSame
          rw [String.append_right_inj] at hValue
          rw [(StringLiteral.append_inj hValue).1]
      | _ => cases hKind
  | paramsClose =>
      cases b with
      | paramsClose => rfl
      | _ => cases hKind
  | dagOpen =>
      cases b with
      | dagOpen => rfl
      | _ => cases hKind
  | dagId name =>
      cases b with
      | dagId name' =>
          simp only [write, pieces, String.join_cons, String.append_right_inj] at hSame
          rw [(StringLiteral.append_inj hSame).1]
      | schedule days' => simp [write, pieces] at hUnits
      | startDate days' => simp [write, pieces] at hUnits
      | dagParams => simp [write, pieces] at hUnits
      | _ => cases hKind
  | schedule days =>
      cases b with
      | dagId name' => simp [write, pieces] at hUnits
      | schedule days' =>
          simp only [write, pieces, String.join_cons, String.append_right_inj,
            String.append_left_inj] at hSame
          rw [scheduleText_injective hSame]
      | startDate days' => simp [write, pieces] at hUnits
      | dagParams => simp [write, pieces] at hUnits
      | _ => cases hKind
  | startDate days =>
      cases b with
      | dagId name' => simp [write, pieces] at hUnits
      | schedule days' => simp [write, pieces] at hUnits
      | startDate days' =>
          simp only [write, pieces, String.join_cons, String.append_right_inj,
            String.append_left_inj] at hSame
          rw [Numeral.text_injective hSame]
      | dagParams => simp [write, pieces] at hUnits
      | _ => cases hKind
  | dagParams =>
      cases b with
      | dagId name' => simp [write, pieces] at hUnits
      | schedule days' => simp [write, pieces] at hUnits
      | startDate days' => simp [write, pieces] at hUnits
      | dagParams => rfl
      | _ => cases hKind
  | dagClose =>
      cases b with
      | dagClose => rfl
      | _ => cases hKind
  | comment remark =>
      cases b with
      | comment remark' =>
          simp only [write, pieces, String.join_cons, String.append_right_inj,
            String.append_left_inj] at hSame
          cases remark
          cases remark'
          congr
      | _ => cases hKind
  | definition name made =>
      cases b with
      | definition name' made' =>
          obtain ⟨rfl, hMade⟩ := Identifier.append_inj (show Task.isIdUnit ' ' = false from rfl)
            (by simpa [write, pieces] using hUnits)
          have hCallee : made.callee.toList = made'.callee.toList := by simpa using hMade
          rw [OperatorClass.callee_injective (String.toList_injective hCallee)]
      | _ => cases hKind
  | argument keyword value =>
      cases b with
      | argument keyword' value' =>
          obtain ⟨rfl, hValue⟩ := Identifier.append_inj (show Task.isIdUnit '=' = false from rfl)
            (by simpa [write, pieces] using hUnits)
          have hText : value.text.toList = value'.text.toList := by simpa using hValue
          rw [ArgumentValue.text_injective (String.toList_injective hText)]
      | _ => cases hKind
  | definitionClose =>
      cases b with
      | definitionClose => rfl
      | _ => cases hKind
  | relation first second =>
      cases b with
      | relation first' second' =>
          obtain ⟨rfl, hSecond⟩ := Identifier.append_inj (show Task.isIdUnit ' ' = false from rfl)
            (by simpa [write, pieces] using hUnits)
          have hText : second.text.toList = second'.text.toList := by simpa using hSecond
          rw [Identifier.text_injective (String.toList_injective hText)]
      | _ => cases hKind
  | pass =>
      cases b with
      | pass => rfl
      | _ => cases hKind

end ModuleLine
end WorkflowDag
