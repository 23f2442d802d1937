import Conform.Codec
import Conform.Proofs.Json.Document
import Conform.Proofs.Table.Reading
import Conform.Proofs.Yaml.Nodes
import Conform.Proofs.Yaml.Tokens
import Conform.Proofs.Yaml.Values
import Conform.Settings

/-!
# How reading a document fails

The readers of texts, of tables and of settings are meant to fail with a message for the user.  A
text that does not follow its notation always has one, and so has whatever is wrong with the tree of
a table or of settings, but for two cases.

What is left are the obstacles: in JSON an integer of too many digits, in YAML a token or a node of
`Token.Obstacle` or `Graph.Obstacle`, in a table a serialized name that is no text and from which a
typed name would have to be derived, and in settings a key that is no text.
`fails_without_message_iff` says that these and nothing else end a reader without a message.  It is
about texts whose values are finite: a YAML node that contains itself has no value here, though it
does not make reading fail where values may be cyclic.
-/

namespace Conform

namespace Yaml

/-- Why a text has no value although it follows the notation of YAML. -/
inductive Obstacle (text : List Char) (fault : Fault) : Prop where
  /-- A part of the text is no token. -/
  | token (h : Token.Obstacle text fault)
  /-- The nodes of the document have no value. -/
  | node {g : Graph} (hg : Graph.ofTokens (Token.ofText text) = .ok (some g))
      (h : g.Obstacle fault)

variable {text : List Char} {fault : Fault}

theorem Obstacle.ne_malformed (h : Obstacle text fault) : fault ≠ .malformed := by
  rcases h with ⟨_ | _⟩ | ⟨-, h⟩
  · nofun
  · nofun
  · exact h.ne_malformed

/-- A text without a value goes against the notation, or there is an obstacle in it. -/
theorem obstacle_of_parse (h : parse text = .error fault) :
    fault = .malformed ∨ Obstacle text fault := by
  rw [parse] at h
  rcases Traversal.bind_eq_error.mp h with h | ⟨g?, hg, h⟩
  · rcases Graph.broken_mem_of_ofTokens h with h | h
    · exact .inl h
    · exact (Token.untold_of_mem_ofText h).imp_right .token
  · cases g? with
    | none => cases h
    | some g => exact (Graph.obstacle_of_value h).imp_right (.node hg)

end Yaml

namespace Document

/-- Why a text has no value although it follows its notation. -/
inductive Obstacle (text : String) : Fault → Prop where
  /-- An integer, with which some end of the text begins, has too many digits. -/
  | json {fault : Json.Fault} (hproblem : fault.problem = .numeral)
      (hrest : fault.rest <:+ text.toList) (hlong : Json.Overlong fault.rest) :
      Obstacle text (.json text.toList fault)
  | yaml {fault : Yaml.Fault} (h : Yaml.Obstacle text.toList fault) : Obstacle text (.yaml fault)

theorem Obstacle.not_isMalformed {text : String} {fault : Fault} (h : Obstacle text fault) :
    ¬ fault.isMalformed = true := by
  cases h with
  | json hproblem => exact fun h => bne_iff_ne.mp h hproblem
  | yaml h => exact fun hm => h.ne_malformed (beq_iff_eq.mp hm)

theorem ends_read (format : Format) (text : String) :
    EndsIn (read format text) (fun _ => True)
      fun fault => fault.isMalformed = true ∨ Obstacle text fault := by
  cases format with
  | json =>
      rw [read]
      split
      · exact trivial
      · rename_i fault heq
        by_cases hproblem : fault.problem = .numeral
        · obtain ⟨hlong, hrest⟩ := (Json.parse_cases text.toList).2 fault heq hproblem
          exact .inr (.json hproblem hrest hlong)
        · exact .inl (bne_iff_ne.mpr hproblem)
  | yaml =>
      rw [read]
      split
      · exact trivial
      · rename_i heq
        exact (Yaml.obstacle_of_parse heq).imp beq_iff_eq.mpr .yaml

end Document

namespace Settings

/-- A key that is no text. -/
def HasNamelessKey (es : Value.Entries) : Prop := ∃ e ∈ es, ∀ name, e.1 ≠ .text name

theorem hasNamelessKey_of_unknownNames? : ∀ {es : Value.Entries}, unknownNames? es = none →
    HasNamelessKey es
  | (k, v) :: es, h => by
      cases k with
      | text name =>
          obtain ⟨e, he, hname⟩ := hasNamelessKey_of_unknownNames? (Option.map_eq_none_iff.mp h)
          exact ⟨e, List.mem_cons_of_mem _ he, hname⟩
      | _ => exact ⟨_, List.mem_cons_self, nofun⟩

/-- The user can be told what is wrong. -/
def HasMessage (path : File.Path) (fault : SettingsFault) : Prop :=
  (fault.message? path).isSome = true

variable {path : File.Path}

theorem ends_readField {α : Type} {es : Value.Entries} {field : String} {absent : α}
    {read : String → Value → Except SettingsFault α}
    (h : ∀ v, EndsIn (read field v) (fun _ => True) (HasMessage path)) :
    EndsIn (readField es field absent read) (fun _ => True) (HasMessage path) := by
  unfold readField
  split
  · exact trivial
  · exact h _

theorem ends_readText (field : String) (v : Value) :
    EndsIn (readText field v) (fun _ => True) (HasMessage path) := by
  unfold readText
  split
  · exact trivial
  · exact rfl

theorem ends_readIndent (field : String) (v : Value) :
    EndsIn (readIndent field v) (fun _ => True) (HasMessage path) := by
  unfold readIndent
  split
  · exact trivial
  · exact .ite rfl trivial
  · exact rfl

theorem ends_readFormat (field : String) (v : Value) :
    EndsIn (readFormat field v) (fun _ => True) (HasMessage path) := by
  refine (ends_readText field v).bind fun name _ => ?_
  split
  · exact trivial
  · exact rfl

/-- Fields of settings that are all known are read, or what is wrong with one has a message. -/
theorem ends_ofEntries (path : File.Path) (es : Value.Entries) :
    EndsIn (ofEntries es) (fun _ => True) fun fault =>
      HasMessage path fault ∨ fault = .namelessField ∧ HasNamelessKey es := by
  have htext : ∀ {α : Type} (f : String → α) (field : String) (v : Value),
      EndsIn (f <$> readText field v) (fun _ => True) (HasMessage path) := by
    intro α f field v
    rw [map_eq_pure_bind]
    exact (ends_readText field v).bind fun _ _ => trivial
  unfold ofEntries
  split
  · rename_i heq
    exact .inr ⟨rfl, hasNamelessKey_of_unknownNames? heq⟩
  · refine EndsIn.fault ?_ fun _ => .inl
    exact (ends_readField (htext _ _)).bind fun _ _ => (ends_readField (ends_readIndent _)).bind
      fun _ _ => (ends_readField (ends_readFormat _)).bind fun _ _ =>
        (ends_readField (htext _ _)).bind fun _ _ => trivial
  · exact .inl rfl

/-- Why a text gives no settings although nothing is wrong with it that has a message. -/
inductive Obstacle (text : String) : SettingsFault → Prop where
  | unreadable {fault : Yaml.Fault} (h : Yaml.Obstacle text.toList fault) :
      Obstacle text (.unreadable fault)
  | namelessField {es : Value.Entries} (htree : Yaml.parse text.toList = .ok (.map es))
      (h : HasNamelessKey es) : Obstacle text .namelessField

theorem Obstacle.message?_eq_none {text : String} {fault : SettingsFault}
    (h : Obstacle text fault) (path : File.Path) : fault.message? path = none := by
  cases h with
  | @unreadable f h =>
      cases f with
      | malformed => exact absurd rfl h.ne_malformed
      | _ => rfl
  | namelessField => rfl

theorem ends_ofText (path : File.Path) (text : String) : EndsIn (ofText text) (fun _ => True)
    fun fault => HasMessage path fault ∨ Obstacle text fault := by
  unfold ofText
  split
  · rename_i heq
    rcases Yaml.obstacle_of_parse heq with rfl | hfault
    · exact .inl rfl
    · exact .inr (.unreadable hfault)
  · rename_i tree heq
    unfold ofTree
    split
    · exact trivial
    · rename_i es
      refine (ends_ofEntries path es).fault fun fault hfault => hfault.imp_right fun h => ?_
      rw [h.1]
      exact .namelessField heq h.2
    · exact .inl rfl

end Settings

namespace Table

/-- Why a text gives no table although it is a document that follows all rules. -/
inductive Obstacle (text : String) : TableDocumentFault → Prop where
  | unreadable {fault : Yaml.Fault} (h : Yaml.Obstacle text.toList fault) :
      Obstacle text (.unreadable fault)
  /-- A typed name would have to be derived from something that is no text. -/
  | name {fault : NameFault} {tree : Value} (htree : Yaml.parse text.toList = .ok tree)
      (h : ¬ tree.Everywhere TableDocument.NamesText) : Obstacle text (.name fault)

theorem Obstacle.isOfDocument_eq_false {text : String} {fault : TableDocumentFault}
    (h : Obstacle text fault) : fault.isOfDocument = false := by
  cases h with
  | unreadable h => exact beq_eq_false_iff_ne.mpr h.ne_malformed
  | name => rfl

theorem ends_ofText (text : String) : EndsIn (ofText text) (fun _ => True)
    fun fault => fault.isOfDocument = true ∨ Obstacle text fault := by
  unfold ofText
  split
  · rename_i heq
    exact (Yaml.obstacle_of_parse heq).imp beq_iff_eq.mpr .unreadable
  · rename_i tree heq
    refine (ends_ofTree tree).fault fun fault hfault => hfault.imp_right fun h => ?_
    obtain ⟨f, rfl, hnames⟩ := h
    exact .name heq hnames

end Table

/-! ## All readers -/

theorem Codec.ends_parseText (format : Format) (text : String) :
    EndsIn (parseText format text) (fun _ => True) fun failure => failure.message? = none ↔
      ∃ fault, failure = .unreadable fault ∧ Document.Obstacle text fault := by
  have hread := Document.ends_read format text
  unfold parseText
  cases h : Document.read format text with
  | ok v => exact trivial
  | error fault =>
      show (if fault.isMalformed then some fault.message else none) = none ↔ _
      constructor
      · intro hnone
        have hfault : ¬ fault.isMalformed = true := fun hm => by simp [hm] at hnone
        exact ⟨fault, rfl, (hread.of_error h).resolve_left hfault⟩
      · rintro ⟨_, heq, hfault⟩
        obtain rfl := Failure.unreadable.inj heq
        exact if_neg hfault.not_isMalformed

/-- Every reader of documents gives a result or fails, and it fails without a message for the user
exactly if it stopped at an obstacle in the text or in the tree that the text stands for. -/
theorem fails_without_message_iff (text : String) :
    (∀ format, EndsIn (Codec.parseText format text) (fun _ => True) fun failure =>
        failure.message? = none ↔
          ∃ fault, failure = .unreadable fault ∧ Document.Obstacle text fault) ∧
      EndsIn (Table.ofText text) (fun _ => True)
        (fun fault => fault.isOfDocument = false ↔ Table.Obstacle text fault) ∧
      ∀ path, EndsIn (Settings.ofText text) (fun _ => True)
        fun fault => fault.message? path = none ↔ Settings.Obstacle text fault := by
  refine ⟨fun format => Codec.ends_parseText format text, ?_, fun path => ?_⟩
  · refine (Table.ends_ofText text).fault fun fault hfault => ?_
    exact ⟨fun h => hfault.resolve_left (by simp [h]), fun h => h.isOfDocument_eq_false⟩
  · refine (Settings.ends_ofText path text).fault fun fault hfault => ?_
    exact ⟨fun h => hfault.resolve_left (by simp [Settings.HasMessage, h]),
      fun h => h.message?_eq_none path⟩

/-- Each reader does fail without a message: of a day that does not exist, a serialized name that is
a number, and a number as a field of settings. -/
theorem fails_without_message :
    ¬ EndsIn (Codec.parseText .yaml "2024-13-45") (fun _ => True)
        (fun failure => failure.message? ≠ none) ∧
      ¬ EndsIn (Table.ofText ("types:\n  A:\n    kind: object\n    properties:\n" ++
          "      - serialized_name: 5\n        type:\n          kind: any\n")) (fun _ => True)
        (fun fault => fault.isOfDocument = true) ∧
      ¬ EndsIn (Settings.ofText "5: a\n") (fun _ => True)
        (fun fault => fault.message? (File.Path.ofText "settings.yaml") ≠ none) := by
  refine ⟨?_, ?_, ?_⟩
  · decide +kernel
  · decide +kernel
  · decide +kernel

end Conform
