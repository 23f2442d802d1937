import Conform.CommandLine.Run
import Conform.File.Tree
import Conform.Proofs.CommandLine.Request
import Conform.Proofs.Conversion.Rendering

/-!
# Check agrees with decode

A run of `check` takes the steps of a run of `decode` but for the last, in which the value is
written.  So the two end in the same trouble, if they do not come as far; and if the document is
JSON, then the last step cannot fail either, whatever the table, since what is read from JSON is
converted to values that can be rendered (`check_agrees_with_decode`).

A command line that is wrong is so for both, and each complains under its own name.
-/

namespace Conform.CommandLine

/-- What is written to say that there is nothing wrong with a document. -/
def noIssues : String := unlines ["No issues found."]

theorem noIssues_eq : noIssues = "No issues found.\n" := by decide

namespace Working

variable {α β γ : Type}

/-! ## How runs end -/

theorem run_bind (w : Working Id α) (k : α → Working Id β) (notices : List Notice) :
    ((w >>= k).run.run notices).run =
      match (w.run.run notices).run with
      | (.ok a, notices) => ((k a).run.run notices).run
      | (.error trouble, notices) => (.error trouble, notices) := by
  rw [ExceptT.run_bind, StateT.run_bind]
  rcases hw : w.run.run notices with ⟨_ | a, notices'⟩ <;> rfl

/-- From whatever notices the run starts, it ends in a result or in a trouble as described. -/
def Ends (w : Working Id α) (P : α → Prop) (Q : Trouble → Prop) : Prop :=
  ∀ notices, EndsIn (w.run.run notices).run.1 P Q

section

variable {P : α → Prop} {R : β → Prop} {Q : Trouble → Prop}

theorem Ends.bind {w : Working Id α} {k : α → Working Id β} (h : Ends w P Q)
    (hk : ∀ a, P a → Ends (k a) R Q) : Ends (w >>= k) R Q := by
  intro notices
  have h := h notices
  rw [run_bind]
  rcases hw : (w.run.run notices).run with ⟨_ | a, notices'⟩
  · rw [hw] at h
    exact h
  · rw [hw] at h
    exact hk a h notices'

theorem Ends.pure {a : α} (h : P a) : Ends (pure a) P Q := fun _ => h

theorem Ends.throw {trouble : Trouble} (h : Q trouble) : Ends (throw trouble : Working Id α) P Q :=
  fun _ => h

theorem Ends.imp {P' : α → Prop} {w : Working Id α} (h : Ends w P Q) (hP : ∀ a, P a → P' a) :
    Ends w P' Q :=
  fun notices => (h notices).imp hP

theorem ends_liftM (x : Id α) : Ends (liftM x) (· = x.run) Q := fun _ => rfl

theorem ends_notice (n : Notice) : Ends (notice n) (fun _ => True) Q := fun _ => trivial

theorem ends_orTrouble {ε : Type} {trouble : ε → Trouble} {result : Except ε α}
    (h : EndsIn result P fun fault => Q (trouble fault)) :
    Ends (orTrouble trouble result) P Q := by
  cases result with
  | ok a => exact .pure h
  | error fault => exact .throw h

theorem ends_forM {f : α → Working Id PUnit} (h : ∀ a, Ends (f a) (fun _ => True) Q) :
    ∀ as : List α, Ends (as.forM f) (fun _ => True) Q
  | [] => .pure trivial
  | a :: as => (h a).bind fun _ _ => ends_forM h as

end

/-! ## Runs that say nothing -/

/-- The run leaves the notices as they are and does not depend on them. -/
def Quiet (w : Working Id α) : Prop :=
  ∃ result, ∀ notices, (w.run.run notices).run = (result, notices)

theorem Quiet.bind {w : Working Id α} {k : α → Working Id β} (h : Quiet w)
    (hk : ∀ a, Quiet (k a)) : Quiet (w >>= k) := by
  obtain ⟨result, hw⟩ := h
  cases result with
  | error trouble => exact ⟨.error trouble, fun notices => by rw [run_bind, hw]⟩
  | ok a =>
      obtain ⟨result, hka⟩ := hk a
      exact ⟨result, fun notices => by rw [run_bind, hw]; exact hka notices⟩

theorem quiet_pure (a : α) : Quiet (pure a) := ⟨_, fun _ => rfl⟩

theorem quiet_liftM (x : Id α) : Quiet (liftM x) := ⟨_, fun _ => rfl⟩

theorem quiet_orTrouble {ε : Type} (trouble : ε → Trouble) :
    ∀ result : Except ε α, Quiet (orTrouble trouble result)
  | .ok _ => ⟨_, fun _ => rfl⟩
  | .error _ => ⟨_, fun _ => rfl⟩

theorem Quiet.run_eq {w : Working Id α} (h : Quiet w) (notices : List Notice) :
    (w.run.run notices).run.1 = (w.run.run []).run.1 := by
  obtain ⟨result, hw⟩ := h
  rw [hw, hw]

/-! ## Runs side by side -/

/-- Both end in a result, or both in the same trouble. -/
inductive SameFate (R : α → β → Prop) (Q : Trouble → Prop) :
    Except Trouble α → Except Trouble β → Prop
  | result {a : α} {b : β} (h : R a b) : SameFate R Q (.ok a) (.ok b)
  | trouble {t : Trouble} (h : Q t) : SameFate R Q (.error t) (.error t)

/-- From the same notices on, the two runs notice the same and end alike. -/
def InStep (w : Working Id α) (w' : Working Id β) (R : α → β → Prop) (Q : Trouble → Prop) : Prop :=
  ∀ notices, (w.run.run notices).run.2 = (w'.run.run notices).run.2 ∧
    SameFate R Q (w.run.run notices).run.1 (w'.run.run notices).run.1

section

variable {P : γ → Prop} {R : α → β → Prop} {Q : Trouble → Prop}

theorem InStep.bind {w : Working Id γ} {k : γ → Working Id α} {l : γ → Working Id β}
    (h : Ends w P Q) (hk : ∀ c, P c → InStep (k c) (l c) R Q) :
    InStep (w >>= k) (w >>= l) R Q := by
  intro notices
  have h := h notices
  rw [run_bind, run_bind]
  rcases hw : (w.run.run notices).run with ⟨trouble | c, notices'⟩
  · rw [hw] at h
    exact ⟨rfl, .trouble h⟩
  · rw [hw] at h
    exact hk c h notices'

end

/-! ## The steps of a run -/

/-- The trouble is not about the writing of a value. -/
def BeforeWriting (trouble : Trouble) : Prop :=
  ∀ indent reason, trouble ≠ .failure (.unwritable indent reason)

section

variable (access : File.Access Id)

theorem ends_orTrouble_of_forall {ε : Type} {trouble : ε → Trouble}
    (h : ∀ fault indent reason, trouble fault ≠ .failure (.unwritable indent reason))
    (result : Except ε α) :
    Ends (orTrouble trouble result) (result = .ok ·) BeforeWriting := by
  refine ends_orTrouble ?_
  cases result with
  | ok a => exact rfl
  | error fault => exact h fault

/-- A question to the files, of which nothing is said. -/
theorem quiet_asked {ε : Type} (trouble : ε → Trouble) (answer : Id (Except ε α)) :
    Quiet (do orTrouble trouble (← liftM answer)) :=
  (quiet_liftM answer).bind fun result => quiet_orTrouble trouble result

theorem ends_asked {ε : Type} {trouble : ε → Trouble}
    (h : ∀ fault indent reason, trouble fault ≠ .failure (.unwritable indent reason))
    (answer : Id (Except ε α)) :
    Ends (do orTrouble trouble (← liftM answer)) (fun _ => True) BeforeWriting :=
  (ends_liftM answer).bind fun result _ =>
    (ends_orTrouble_of_forall h result).imp fun _ _ => trivial

theorem quiet_exists? (path : File.Path) : Quiet (exists? access path) := quiet_asked _ _

theorem ends_exists? (path : File.Path) :
    Ends (exists? access path) (fun _ => True) BeforeWriting :=
  ends_asked (by rintro _ _ _ ⟨⟩) _

theorem quiet_loadSettings (path : File.Path) : Quiet (loadSettings access path) :=
  quiet_asked _ _

theorem ends_loadSettings (path : File.Path) :
    Ends (loadSettings access path) (fun _ => True) BeforeWriting :=
  ends_asked (by rintro _ _ _ ⟨⟩) _

theorem quiet_findSettings (options : Options) : Quiet (findSettings access options) := by
  rw [findSettings]
  split
  · exact quiet_loadSettings access _
  · refine (quiet_liftM _).bind fun _ => (quiet_exists? access _).bind fun found => ?_
    split
    · exact quiet_loadSettings access _
    · exact quiet_pure _

/-- The settings of a run do not depend on what it said before. -/
theorem ends_findSettings (options : Options) :
    Ends (findSettings access options)
      (fun settings => ((findSettings access options).run.run []).run.1 = .ok settings)
      BeforeWriting := by
  have hends : Ends (findSettings access options) (fun _ => True) BeforeWriting := by
    rw [findSettings]
    split
    · exact ends_loadSettings access _
    · refine (ends_liftM _).bind fun _ _ => (ends_exists? access _).bind fun found _ => ?_
      split
      · exact ends_loadSettings access _
      · exact .pure trivial
  intro notices
  have hend := hends notices
  rw [(quiet_findSettings access options).run_eq] at hend ⊢
  generalize ((findSettings access options).run.run []).run.1 = result at hend ⊢
  cases result with
  | ok settings => exact rfl
  | error trouble => exact hend

theorem ends_loadTable (path : File.Path) :
    Ends (loadTable access path) (fun _ => True) BeforeWriting :=
  (ends_liftM _).bind fun text _ =>
    (ends_orTrouble_of_forall (by rintro _ _ _ ⟨⟩) text).bind fun text _ =>
      (ends_orTrouble_of_forall (by rintro _ _ _ ⟨⟩) (Table.ofText text)).bind fun table _ =>
        (ends_notice _).bind fun _ _ => .pure trivial

theorem ends_findTable (options : Options) (settings : Settings) :
    Ends (findTable access options settings) (fun _ => True) BeforeWriting := by
  rw [findTable]
  split
  · exact (ends_loadTable access _).bind fun table _ => .pure trivial
  · exact .pure trivial

theorem ends_chooseType (options : Options) (settings : Settings) (table : Option Table) :
    Ends (chooseType options settings table) (fun _ => True) BeforeWriting := by
  simp only [chooseType]
  split
  · exact .pure trivial
  · exact .pure trivial
  · exact .throw (by rintro _ _ ⟨⟩)

theorem ends_readTree (path : File.Path) :
    Ends (readTree access path .json) Json.Renderable BeforeWriting := by
  refine (ends_liftM _).bind fun text _ =>
    (ends_orTrouble_of_forall (by rintro _ _ _ ⟨⟩) text).bind fun text _ => ?_
  refine ends_orTrouble ?_
  cases hread : Document.read .json text with
  | ok tree =>
      have hparse : Codec.parseText .json text = .ok tree := by
        rw [Codec.parseText, hread]
        rfl
      rw [hparse]
      exact (Codec.isDocument_of_parseText hparse).renderable
  | error fault =>
      rw [Codec.parseText, hread]
      intro _ _ h
      cases h

theorem ends_convert (table : Table) (direction : Direction) (type : String) {tree : Value}
    (htree : Json.Renderable tree) :
    Ends (convert table direction type tree) Json.Renderable BeforeWriting := by
  have hend : EndsIn (Codec.convertAs table direction type tree .empty).1 Json.Renderable
      fun stop => BeforeWriting (.failure (.stopped stop)) := by
    cases houtcome : (Codec.convertAs table direction type tree .empty).1 with
    | ok v => exact Conversion.renderable_of_convertAs Cache.faithful_empty houtcome htree
    | error stop => exact nofun
  have hrest : Ends
      (do
        (Codec.convertAs table direction type tree .empty).2.entries.forM fun entry =>
          notice (.fieldMap entry.direction entry.fields.length)
        orTrouble (fun stop => .failure (.stopped stop))
          (Codec.convertAs table direction type tree .empty).1)
      Json.Renderable BeforeWriting :=
    (ends_forM (fun _ => ends_notice _) _).bind fun _ _ => ends_orTrouble hend
  rw [convert]
  split
  · exact (ends_notice _).bind fun _ _ => hrest
  · exact hrest

/-- What a run writes that checks a document, beside what one writes that decodes it. -/
def Answered (said written : String) : Prop :=
  said = noIssues ∧
    ∃ v text, Codec.renderText (some 2) v = .ok text ∧ written = unlines [text]

theorem inStep_convertFile (file : String) {options : Options}
    (hjson : ∀ settings, ((findSettings access options).run.run []).run.1 = .ok settings →
      options.format.getD settings.inputFormat = .json) :
    InStep (convertFile access .check file options) (convertFile access .decode file options)
      Answered BeforeWriting := by
  refine .bind (ends_exists? access _) fun found _ => ?_
  split
  · refine .bind (ends_findSettings access options) fun settings hsettings => ?_
    refine .bind (ends_findTable access options settings) fun loaded _ => ?_
    refine .bind (ends_chooseType options settings loaded) fun type _ => ?_
    rw [hjson settings hsettings]
    refine .bind (ends_readTree access _) fun tree htree => ?_
    refine .bind (ends_convert _ _ _ htree) fun v hv => ?_
    -- The value can be rendered, so decoding does not fail where checking cannot.
    have hindent : Codec.IsIndent (some 2) := Codec.isIndent_some.mpr rfl
    obtain ⟨text, htext⟩ := hv.exists_renderText hindent
    rw [write, write, htext]
    exact fun _ => ⟨rfl, .result ⟨rfl, v, text, htext, rfl⟩⟩
  · exact .bind (P := fun _ => False) (.throw (by rintro _ _ ⟨⟩)) nofun

end

end Working

/-! ## Reports -/

theorem help_ne_noIssues (stage : Stage) : stage.help ≠ noIssues := by
  intro h
  have h := congrArg (fun s => s.toList.head?) h
  simp [Stage.help, Stage.usage, noIssues, unlines, String.join] at h

/-- If the run of a command line converts a document, then JSON is the notation of the document, by
the options and by the settings that the run finds. -/
def ReadsJson (access : File.Access Id) (arguments : List String) : Prop :=
  ∀ mode file options settings,
    Request.ofArguments arguments = .ok (.convert mode file options) →
      ((Working.findSettings access options).run.run []).run.1 = .ok settings →
        options.format.getD settings.inputFormat = .json

/-- How the report of a run that checks is to that of one that decodes. -/
inductive Report.Agrees : Report → Report → Prop
  | help (stage : Stage) : Agrees (.help (Stage.asCheck stage)) (.help stage)
  | misuse (stage : Stage) (m : Misuse) : Agrees (.misuse (Stage.asCheck stage) m) (.misuse stage m)
  | trouble (notices : List Notice) {t : Trouble} (h : Working.BeforeWriting t) :
      Agrees (.done notices (.error t)) (.done notices (.error t))
  | answer (notices : List Notice) {said written : String} (h : Working.Answered said written) :
      Agrees (.done notices (.ok said)) (.done notices (.ok written))

theorem agrees_report {options : Options} {check decode : Working Id String}
    (h : Working.InStep check decode Working.Answered Working.BeforeWriting) :
    (Working.report options check).run.Agrees (Working.report options decode).run := by
  obtain ⟨hnotices, hfate⟩ := h []
  have hreport (w : Working Id String) : (Working.report options w).run =
      .done (if options.verbose then (w.run.run []).run.2 else []) (w.run.run []).run.1 := rfl
  rw [hreport, hreport, hnotices]
  generalize (check.run.run []).run.1 = result at hfate ⊢
  generalize (decode.run.run []).run.1 = result' at hfate ⊢
  cases hfate with
  | result h => exact .answer _ h
  | trouble h => exact .trouble _ h

theorem agrees_run (access : File.Access Id) {before : List String}
    (hbefore : ∀ word ∈ before, Word.PrecedesCommand word) {after : List String}
    (hjson : ReadsJson access (before ++ "decode" :: after)) :
    (run access (before ++ "check" :: after)).run.Agrees
      (run access (before ++ "decode" :: after)).run := by
  have hends := ends_ofArguments_decode hbefore after
  rw [run, run, ofArguments_check hbefore]
  cases hread : Request.ofArguments (before ++ "decode" :: after) with
  | error e => exact .misuse e.1 e.2
  | ok request =>
      rcases hends.of_ok hread with ⟨stage, rfl⟩ | ⟨file, options, rfl⟩
      · exact .help stage
      · exact agrees_report (Working.inStep_convertFile access file fun settings hsettings =>
          hjson .decode file options settings hread hsettings)

/-- A run that checks ends as one does that decodes: with the same number; saying that there are no
issues where the other writes a value; in the same trouble, which is never that a value cannot be
written; or with the same complaint about the command line, but each under its own name. -/
theorem check_agrees_with_decode (access : File.Access Id) {before : List String}
    (hbefore : ∀ word ∈ before, Word.PrecedesCommand word) {after : List String}
    (hjson : ReadsJson access (before ++ "decode" :: after)) :
    let check := (run access (before ++ "check" :: after)).run
    let decode := (run access (before ++ "decode" :: after)).run
    check.status = decode.status ∧
      (check.output = "No issues found.\n" ↔ ∃ notices v text,
        Codec.renderText (some 2) v = .ok text ∧
          decode = .done notices (.ok (unlines [text]))) ∧
      (∀ notices trouble, decode = .done notices (.error trouble) →
        check = decode ∧
          ∀ indent reason, trouble ≠ .failure (.unwritable indent reason)) ∧
      ∀ stage misuse, decode = .misuse stage misuse →
        check = .misuse (Stage.asCheck stage) misuse := by
  intro check decode
  have hagrees : check.Agrees decode := agrees_run access hbefore hjson
  have hempty : "" ≠ noIssues := by
    rw [noIssues_eq]
    decide
  rw [← noIssues_eq]
  generalize check = check, decode = decode at hagrees
  cases hagrees with
  | help stage =>
      refine ⟨rfl, iff_of_false (help_ne_noIssues _) ?_, ?_, ?_⟩
      · rintro ⟨_, _, _, -, ⟨⟩⟩
      · rintro _ _ ⟨⟩
      · rintro _ _ ⟨⟩
  | misuse stage m =>
      refine ⟨rfl, iff_of_false hempty ?_, ?_, ?_⟩
      · rintro ⟨_, _, _, -, ⟨⟩⟩
      · rintro _ _ ⟨⟩
      · rintro _ _ ⟨⟩
        rfl
  | trouble notices h =>
      refine ⟨rfl, iff_of_false hempty ?_, ?_, ?_⟩
      · rintro ⟨_, _, _, -, ⟨⟩⟩
      · rintro _ _ ⟨⟩
        exact ⟨rfl, h⟩
      · rintro _ _ ⟨⟩
  | answer notices h =>
      obtain ⟨rfl, v, text, htext, rfl⟩ := h
      refine ⟨rfl, iff_of_true rfl ⟨notices, v, text, htext, rfl⟩, ?_, ?_⟩
      · rintro _ _ ⟨⟩
      · rintro _ _ ⟨⟩

/-- Moments in a document that is JSON by the command line, against the settings. -/
theorem check_agrees_with_decode_event :
    let access : File.Access Id := File.Tree.access {
      workingDirectory := []
      entries := [
        (["types.yaml"], .file "types:\n  Event:\n    kind: array\n    items:\n      kind: date\n"),
        ([".schemacast.yaml"], .file "input-format: yaml\n"),
        (["in.json"], .file "[\"2024-05-01T12:30:00Z\", null]")] }
    let before := ["-v"]
    let after := ["in.json", "--table", "types.yaml", "-tEvent", "--form=json"]
    let check := (run access (before ++ "check" :: after)).run
    let decode := (run access (before ++ "decode" :: after)).run
    (∀ word ∈ before, Word.PrecedesCommand word) ∧
      ReadsJson access (before ++ "decode" :: after) ∧
      check.status = decode.status ∧
      (check.output = "No issues found.\n" ↔ ∃ notices v text,
        Codec.renderText (some 2) v = .ok text ∧
          decode = .done notices (.ok (unlines [text]))) ∧
      (∀ notices trouble, decode = .done notices (.error trouble) →
        check = decode ∧
          ∀ indent reason, trouble ≠ .failure (.unwritable indent reason)) ∧
      ∀ stage misuse, decode = .misuse stage misuse →
        check = .misuse (Stage.asCheck stage) misuse := by
  intro access before after check decode
  have hbefore : ∀ word ∈ before, Word.PrecedesCommand word := by
    have hrole : Word.roleOf (Flag.ofStage none) "-v" = .ok (.flag .verbose "-v" none) := by cbv
    intro word hword
    rw [List.mem_singleton.mp hword]
    exact ⟨by decide, by simp [hrole]⟩
  have hread : (Request.ofArguments ["-v", "decode", "in.json", "--table", "types.yaml", "-tEvent",
      "--form=json"]).toOption =
        some (.convert .decode "in.json" {
          verbose := true, type := some "Event", format := some .json,
          table := some "types.yaml" }) := by
    decide +kernel
  have hjson : ReadsJson access (before ++ "decode" :: after) := by
    intro mode file options settings hrequest _
    have hoptions := hread.symm.trans (congrArg Except.toOption hrequest)
    cases hoptions
    rfl
  exact ⟨hbefore, hjson, check_agrees_with_decode access hbefore hjson⟩

/-- A complaint about a command line is under the name of the command, so it is another one for
`check` than for `decode`, also where both ask for JSON. -/
theorem complaint_names_command :
    let access := (File.Tree.mk [] [(["in.json"], .file "null")]).access
    let words := ["in.json", "--format", "json", "--type"]
    let check := (run access ("check" :: words)).run
    let decode := (run access ("decode" :: words)).run
    check.status = 2 ∧ decode.status = 2 ∧
      check.complaints = Stage.usage (some (.convert .check)) ++
        "schemacast check: error: argument --type/-t: expected one argument\n" ∧
      decode.complaints = Stage.usage (some (.convert .decode)) ++
        "schemacast decode: error: argument --type/-t: expected one argument\n" ∧
      check.complaints ≠ decode.complaints := by
  intro access words check decode
  have hcheck : check = .misuse (some (.convert .check)) (.argumentMissing .type) := by cbv
  have hdecode : decode = .misuse (some (.convert .decode)) (.argumentMissing .type) := by cbv
  rw [hcheck, hdecode]
  exact ⟨rfl, rfl, rfl, rfl, by decide +kernel⟩

end Conform.CommandLine
