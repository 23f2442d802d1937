import Conform.CommandLine.Request
import Conform.Proofs.Outcome
import Conform.Proofs.Traversal

/-!
# Command lines of check and decode

The commands `check` and `decode` take the same words.  Put the one for the other in a command line,
and it asks for the same thing of the other command, or the same is wrong with it
(`ofArguments_check`); only the stage, by which a help text or a complaint names the command, is
another.

Nothing but flags, and what looks like flags, may stand before the command: the first operand would
be the command itself.
-/

namespace Conform.CommandLine

/-! ## Checking instead of decoding -/

/-- Checks where the command decodes. -/
def Command.asCheck : Command → Command
  | .convert .decode => .convert .check
  | command => command

def Stage.asCheck (stage : Stage) : Stage := Option.map Command.asCheck stage

def Ending.asCheck : Ending → Ending
  | .help stage => .help (Stage.asCheck stage)
  | .misuse stage m => .misuse (Stage.asCheck stage) m

/-- Checks where the request is to decode. -/
def Request.asCheck : Request → Request
  | .help stage => .help (Stage.asCheck stage)
  | .convert .decode file options => .convert .check file options
  | request => request

theorem ofStage_asCheck (stage : Stage) :
    Flag.ofStage (Stage.asCheck stage) = Flag.ofStage stage := by
  rcases stage with _ | ⟨_ | _ | _⟩ | _ <;> rfl

theorem takesFile_asCheck (stage : Stage) :
    (Stage.asCheck stage).any Command.takesFile = stage.any Command.takesFile := by
  rcases stage with _ | ⟨_ | _ | _⟩ | _ <;> rfl

namespace Progress

/-! ## After the command -/

theorem takeFlag_asCheck (stage : Stage) (p : Progress) (given : Flag × Option String) :
    takeFlag (Stage.asCheck stage) p given = (takeFlag stage p given).mapError Ending.asCheck := by
  obtain ⟨flag, argument⟩ := given
  cases flag with
  | format =>
      simp only [takeFlag]
      cases Format.ofName? (argument.getD "") <;> rfl
  | indent =>
      simp only [takeFlag]
      cases Number.readInt? 10 (argument.getD "").toList <;> rfl
  | _ => rfl

theorem takeFlags_asCheck (stage : Stage) (p : Progress) (given : List (Flag × Option String)) :
    takeFlags (Stage.asCheck stage) p given =
      (takeFlags stage p given).mapError Ending.asCheck := by
  rw [takeFlags, takeFlags, Traversal.mapError_foldlM]
  exact congrArg (given.foldlM · p) (funext fun p => funext (takeFlag_asCheck stage p))

theorem takeGroup_asCheck (stage : Stage) (p : Progress) (g : Group) :
    takeGroup (Stage.asCheck stage) p g = (takeGroup stage p g).mapError Ending.asCheck := by
  simp only [takeGroup]
  split
  · exact takeFlags_asCheck stage _ _
  · split
    · rfl
    · exact takeFlags_asCheck stage _ _

theorem take_asCheck (stage : Stage) (p : Progress) (word : Word) :
    take (Stage.asCheck stage) p word = (take stage p word).mapError Ending.asCheck := by
  simp only [take, takeOperand, takeDivider, ofStage_asCheck, takesFile_asCheck,
    takeFlags_asCheck, takeGroup_asCheck]
  split
  · split <;> rfl
  · split
    · rfl
    · rfl
    · rfl
    · split <;> rfl

theorem foldlM_take_asCheck (stage : Stage) (p : Progress) (words : List Word) :
    words.foldlM (take (Stage.asCheck stage)) p =
      (words.foldlM (take stage) p).mapError Ending.asCheck := by
  rw [Traversal.mapError_foldlM]
  exact congrArg (words.foldlM · p) (funext fun p => funext (take_asCheck stage p))

theorem readWords_asCheck (stage : Stage) (words : List String) :
    readWords (Stage.asCheck stage) words = (readWords stage words).mapError Ending.asCheck := by
  rw [readWords, readWords, ofStage_asCheck]
  cases Word.readAll (Flag.ofStage stage) words <;> rfl

/-- Checks where a command line asks to decode, and names the other stage in an ending. -/
def asCheck (outcome : Except Ending Request) : Except Ending Request :=
  (outcome.map Request.asCheck).mapError Ending.asCheck

theorem bind_asCheck {α : Type} {x : Except Ending α} {k l : α → Except Ending Request}
    (h : ∀ a, l a = asCheck (k a)) : (x.mapError Ending.asCheck >>= l) = asCheck (x >>= k) := by
  cases x with
  | error ending => rfl
  | ok a => exact h a

theorem bind_asCheck_of_eq {α : Type} {x : Except Ending α} {k l : α → Except Ending Request}
    (hx : x.mapError Ending.asCheck = x) (h : ∀ a, l a = asCheck (k a)) :
    (x >>= l) = asCheck (x >>= k) := by
  rw [← bind_asCheck h, hx]

theorem finish_asCheck (p : Progress) (request : Request) :
    p.finish request.asCheck = asCheck (p.finish request) := by
  rw [finish, finish]
  split <;> rfl

theorem afterCommand_asCheck (p : Progress) (command : Command) (words : List String) :
    p.afterCommand command.asCheck words = asCheck (p.afterCommand command words) := by
  have hstage : some command.asCheck = Stage.asCheck (some command) := rfl
  simp only [afterCommand]
  rw [hstage, readWords_asCheck]
  refine bind_asCheck fun read => ?_
  rw [foldlM_take_asCheck]
  refine bind_asCheck fun p => ?_
  cases p.waiting with
  | some waiting => rfl
  | none =>
      cases command with
      | types => exact p.finish_asCheck (.types p.options)
      | convert mode =>
          cases p.file with
          | none => cases mode <;> rfl
          | some file =>
              cases mode with
              | decode => exact p.finish_asCheck (.convert .decode file p.options)
              | encode => exact p.finish_asCheck (.convert .encode file p.options)
              | check => exact p.finish_asCheck (.convert .check file p.options)

theorem ends_afterCommand (p : Progress) (mode : Mode) (words : List String) :
    EndsIn (p.afterCommand (.convert mode) words)
      (fun request => ∃ file options, request = .convert mode file options) fun _ => True := by
  refine (EndsIn.any _).bind fun read _ => (EndsIn.any _).bind fun p _ => ?_
  cases p.waiting with
  | some waiting => exact trivial
  | none =>
      cases p.file with
      | none => exact trivial
      | some file =>
          show EndsIn (p.finish _) _ _
          rw [finish]
          split
          · exact ⟨file, p.options, rfl⟩
          · exact trivial

/-! ## Before the command -/

/-- Words that are no operands and not the divider come before the first operand, the command. -/
theorem beforeCommand_append {name : String} {rest : List Word} : ∀ {p : Progress}
    {before : List Word}, (∀ word ∈ before, word.role ≠ .operand ∧ word.role ≠ .divider) →
      p.beforeCommand (before ++ ⟨name, .operand⟩ :: rest) =
        before.foldlM (take none) p >>= fun p => p.atCommand name (rest.map (·.text))
  | p, [], _ => rfl
  | p, word :: before, h => by
      obtain ⟨⟨hoperand, hdivider⟩, h⟩ := List.forall_mem_cons.mp h
      have ih (p : Progress) := @beforeCommand_append name rest p before h
      rw [List.cons_append, List.foldlM_cons, bind_assoc]
      obtain ⟨text, role⟩ := word
      cases role with
      | operand => exact absurd rfl hoperand
      | divider => exact absurd rfl hdivider
      | flag | unknown =>
          simp only [beforeCommand]
          exact congrArg _ (funext ih)

end Progress

namespace Word

/-- In front of a command the word is no operand, which would be the command, and not the
divider. -/
def PrecedesCommand (word : String) : Prop :=
  word ≠ "--" ∧ roleOf (Flag.ofStage none) word ≠ .ok .operand

variable {flags : List Flag}

theorem readAll_cons {word : String} (h : word ≠ "--") (rest : List String) :
    readAll flags (word :: rest) = do
      let role ← roleOf flags word
      let words ← readAll flags rest
      return ⟨word, role⟩ :: words := by
  rw [readAll, if_neg h]
  cases roleOf flags word with
  | error misuse => rfl
  | ok role => cases readAll flags rest <;> rfl

theorem readAll_append {before : List String} (h : ∀ word ∈ before, word ≠ "--")
    (rest : List String) :
    readAll flags (before ++ rest) = do
      let words ← before.mapM fun word => (roleOf flags word).map (Word.mk word)
      let more ← readAll flags rest
      return words ++ more := by
  induction before with
  | nil =>
      rw [List.nil_append, List.mapM_nil]
      cases readAll flags rest <;> rfl
  | cons word before ih =>
      obtain ⟨hword, h⟩ := List.forall_mem_cons.mp h
      rw [List.cons_append, readAll_cons hword, ih h, List.mapM_cons]
      cases roleOf flags word with
      | error misuse => rfl
      | ok role =>
          cases before.mapM fun word => (roleOf flags word).map (Word.mk word) with
          | error misuse => rfl
          | ok words => cases readAll flags rest <;> rfl

theorem roleOf_of_head {word : String} (h : word.toList.head? ≠ some '-') :
    roleOf flags word = .ok .operand :=
  if_pos (Or.inl h)

theorem spelled?_ne_divider (word : String) : spelled? flags word ≠ some .divider := by
  intro h
  rw [spelled?] at h
  split at h
  · cases h
  · obtain ⟨_, -, h⟩ := Option.bind_eq_some_iff.mp h
    obtain ⟨_, -, h⟩ := Option.bind_eq_some_iff.mp h
    cases h

theorem roleOf_ne_divider (word : String) : roleOf flags word ≠ .ok .divider := by
  intro h
  rw [roleOf] at h
  split at h
  · cases h
  · split at h
    · rename_i hspelled
      exact spelled?_ne_divider word (Except.ok.inj h ▸ hspelled)
    · split at h
      · cases h
      · split at h <;> cases h
      · cases h

theorem ends_mapM_roleOf {before : List String} (h : ∀ word ∈ before, PrecedesCommand word) :
    EndsIn (before.mapM fun word => (roleOf (Flag.ofStage none) word).map (Word.mk word))
      (fun words => ∀ word ∈ words, word.role ≠ .operand ∧ word.role ≠ .divider)
      fun _ => True := by
  refine EndsIn.mapM fun word hword => ?_
  cases hrole : roleOf (Flag.ofStage none) word with
  | error misuse => exact trivial
  | ok role =>
      exact ⟨fun heq => (h word hword).2 (hrole.trans (congrArg _ heq)),
        fun heq => roleOf_ne_divider word (hrole.trans (congrArg _ heq))⟩

end Word

/-! ## The whole command line -/

open Progress

/-- A command line with a command is read from both sides of the command. -/
theorem read_around {before : List String} (h : ∀ word ∈ before, Word.PrecedesCommand word)
    {name : String} (hname : name.toList.head? ≠ some '-') (after : List String) :
    readWords none (before ++ name :: after) >>= beforeCommand {} =
      (before.mapM fun word => (Word.roleOf (Flag.ofStage none) word).map (Word.mk word)).mapError
          (Ending.misuse none) >>= fun words =>
        readWords none after >>= fun more =>
          words.foldlM (take none) {} >>= fun p => p.atCommand name (more.map (·.text)) := by
  have hends := Word.ends_mapM_roleOf h
  have hdivider : name ≠ "--" := by
    rintro rfl
    exact hname rfl
  rw [readWords, Word.readAll_append fun word hword => (h word hword).1,
    Word.readAll_cons hdivider, Word.roleOf_of_head hname, readWords]
  cases hwords : before.mapM fun word =>
      (Word.roleOf (Flag.ofStage none) word).map (Word.mk word) with
  | error misuse => rfl
  | ok words =>
      cases Word.readAll (Flag.ofStage none) after with
      | error misuse => rfl
      | ok more => exact beforeCommand_append (hends.of_ok hwords)

theorem ends_ofArguments_decode {before : List String}
    (h : ∀ word ∈ before, Word.PrecedesCommand word) (after : List String) :
    EndsIn (Request.ofArguments (before ++ "decode" :: after))
      (fun request => (∃ stage, request = .help stage) ∨
        ∃ file options, request = .convert .decode file options)
      fun _ => True := by
  have hends : EndsIn (readWords none (before ++ "decode" :: after) >>= beforeCommand {})
      (fun request => ∃ file options, request = .convert .decode file options)
      fun _ => True := by
    rw [read_around h (by decide)]
    exact (EndsIn.any _).bind fun _ _ => (EndsIn.any _).bind fun _ _ =>
      (EndsIn.any _).bind fun p _ => p.ends_afterCommand .decode _
  rw [Request.ofArguments]
  cases hread : readWords none (before ++ "decode" :: after) >>= beforeCommand {} with
  | ok request => exact .inr (hends.of_ok hread)
  | error ending =>
      cases ending with
      | help stage => exact .inl ⟨stage, rfl⟩
      | misuse => exact trivial

/-- A command line that checks asks for what it asks for with `decode` in the place of `check`, or
the same is wrong with it. -/
theorem ofArguments_check {before : List String}
    (h : ∀ word ∈ before, Word.PrecedesCommand word) (after : List String) :
    Request.ofArguments (before ++ "check" :: after) =
      ((Request.ofArguments (before ++ "decode" :: after)).map Request.asCheck).mapError
        fun e => (Stage.asCheck e.1, e.2) := by
  have key : readWords none (before ++ "check" :: after) >>= beforeCommand {} =
      asCheck (readWords none (before ++ "decode" :: after) >>= beforeCommand {}) := by
    rw [read_around h (by decide), read_around h (by decide)]
    refine bind_asCheck_of_eq ?_ fun words => bind_asCheck_of_eq ?_ fun more =>
      bind_asCheck_of_eq ?_ fun p => p.afterCommand_asCheck (.convert .decode) _
    · cases before.mapM fun word => (Word.roleOf (Flag.ofStage none) word).map (Word.mk word) <;>
        rfl
    · exact (readWords_asCheck none after).symm
    · exact (foldlM_take_asCheck none {} words).symm
  rw [Request.ofArguments, Request.ofArguments, key]
  rcases readWords none (before ++ "decode" :: after) >>= beforeCommand {} with
    (_ | _) | request <;> rfl

end Conform.CommandLine
