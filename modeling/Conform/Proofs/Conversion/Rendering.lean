import Conform.Proofs.Conversion.Converted
import Conform.Proofs.Conversion.Resolution
import Conform.Proofs.Json.RoundTrip

/-!
# Converted documents can be rendered

A value can be rendered if JSON has a notation for everything in it.  Dates and points in time are
among that, though not as keys; `missing` is not, so it is nowhere in such a value.

What is read from JSON can be rendered, and so can whatever that is converted to, by any table and
in either direction (`renderable_of_convertAs`).  Fields that are not there take part in a
conversion as `missing`, but what they are converted to is not written.
-/

namespace Conform

namespace Json

open Value Digits

/-- JSON has a notation for the key. -/
def HasKeyText (k : Value) : Prop := ∃ cs, keyText k = .ok cs

/-- JSON has a notation for everything in the value. -/
inductive Renderable : Value → Prop
  | null : Renderable .null
  | bool (b : Bool) : Renderable (.bool b)
  | int {n : Int} (short : withinLimit n = true) : Renderable (.int n)
  | float (x : Binary64) : Renderable (.float x)
  | text (s : String) : Renderable (.text s)
  | date (d : Date) : Renderable (.date d)
  | moment (m : Moment) : Renderable (.moment m)
  | list {xs : List Value} (items : ∀ x ∈ xs, Renderable x) : Renderable (.list xs)
  | tuple {xs : List Value} (items : ∀ x ∈ xs, Renderable x) : Renderable (.tuple xs)
  | map {es : Entries} (keys : ∀ e ∈ es, HasKeyText e.1) (values : ∀ e ∈ es, Renderable e.2) :
      Renderable (.map es)

theorem IsDocument.renderable {v : Value} (h : IsDocument v) : Renderable v := by
  induction h with
  | null => exact .null
  | bool b => exact .bool b
  | int short => exact .int short
  | float x => exact .float x
  | text s => exact .text s
  | list _ ih => exact .list ih
  | map _ named _ ih =>
      refine .map (fun e he => ?_) ih
      obtain ⟨s, hs⟩ := named e he
      exact ⟨s.toList, by rw [hs, keyText]⟩

/-! ## Texts of such values -/

section

variable {style : Style}

theorem exists_writeItems_of_forall {level : Nat} : ∀ {xs : List Value},
    (∀ x ∈ xs, ∃ cs, write style level x = .ok cs) → ∃ cs, writeItems style level xs = .ok cs
  | [], _ => ⟨[], by rw [writeItems]⟩
  | x :: xs, h => by
      obtain ⟨⟨body, hbody⟩, h⟩ := List.forall_mem_cons.mp h
      obtain ⟨rest, hrest⟩ := exists_writeItems_of_forall h
      exact ⟨_, by rw [writeItems, hbody, hrest]; rfl⟩

theorem exists_writeEntries_of_forall {level : Nat} : ∀ {es : Entries},
    (∀ e ∈ es, HasKeyText e.1) → (∀ e ∈ es, ∃ cs, write style level e.2 = .ok cs) →
      ∃ cs, writeEntries style level es = .ok cs
  | [], _, _ => ⟨[], by rw [writeEntries]⟩
  | (k, v) :: es, hkeys, h => by
      obtain ⟨⟨key, hkey⟩, hkeys⟩ := List.forall_mem_cons.mp hkeys
      obtain ⟨⟨body, hbody⟩, h⟩ := List.forall_mem_cons.mp h
      obtain ⟨rest, hrest⟩ := exists_writeEntries_of_forall hkeys h
      exact ⟨_, by rw [writeEntries, hkey, hbody, hrest]; rfl⟩

/-- A value that can be rendered has a text in each style that lets dates appear. -/
theorem Renderable.exists_write (hdates : style.dates = true) {v : Value} (hv : Renderable v) :
    ∀ level, ∃ cs, write style level v = .ok cs := by
  induction hv with
  | null => exact fun _ => ⟨_, by rw [write]⟩
  | bool => exact fun _ => ⟨_, by rw [write]⟩
  | float => exact fun _ => ⟨_, by rw [write]⟩
  | text => exact fun _ => ⟨_, by rw [write]⟩
  | int short => exact fun _ => ⟨_, by rw [write, writeInt, if_pos short]⟩
  | date => exact fun _ => ⟨_, by rw [write, if_pos hdates]⟩
  | moment => exact fun _ => ⟨_, by rw [write, if_pos hdates]⟩
  | @list xs _ ih | @tuple xs _ ih =>
      intro level
      cases xs with
      | nil => exact ⟨_, by rw [write]⟩
      | cons x xs =>
          obtain ⟨hx, hxs⟩ := List.forall_mem_cons.mp ih
          obtain ⟨body, hbody⟩ := hx (level + 1)
          obtain ⟨rest, hrest⟩ := exists_writeItems_of_forall fun y hy => hxs y hy (level + 1)
          exact ⟨_, by rw [write, hbody, hrest]; rfl⟩
  | @map es keys _ ih =>
      intro level
      cases es with
      | nil => exact ⟨_, by rw [write]⟩
      | cons e es =>
          obtain ⟨⟨key, hkey⟩, hkeys⟩ := List.forall_mem_cons.mp keys
          obtain ⟨hv, hes⟩ := List.forall_mem_cons.mp ih
          obtain ⟨body, hbody⟩ := hv (level + 1)
          obtain ⟨rest, hrest⟩ :=
            exists_writeEntries_of_forall hkeys fun e he => hes e he (level + 1)
          exact ⟨_, by rw [write, hkey, hbody, hrest]; rfl⟩

end

theorem Renderable.exists_renderText {indent : Option Int} (hindent : Codec.IsIndent indent)
    {v : Value} (hv : Renderable v) : ∃ text, Codec.renderText indent v = .ok text := by
  obtain ⟨layout, hlayout⟩ := Codec.exists_layout_iff.mpr hindent
  have hdates : (Style.mk layout false true).dates = true := rfl
  obtain ⟨cs, hcs⟩ := hv.exists_write hdates 0
  exact ⟨_, by rw [Codec.renderText, Codec.render_eq_write hlayout, hcs]; rfl⟩

/-! ## Entries of such maps -/

theorem Renderable.entries {es : Entries} (h : Renderable (.map es)) :
    ∀ e ∈ es, HasKeyText e.1 ∧ Renderable e.2 := by
  cases h with
  | map keys values => exact fun e he => ⟨keys e he, values e he⟩

theorem renderable_ofEntries {es : Entries} (h : ∀ e ∈ es, HasKeyText e.1 ∧ Renderable e.2) :
    Renderable (ofEntries es) :=
  have hmem := forall_foldl_put h
  .map (fun e he => (hmem e he).1) fun e he => (hmem e he).2

end Json

namespace Conversion

open Value Json

variable {table : Table} {d : Direction}

/-! ## Conversions of such values -/

theorem inherited_renderable : Inherited Renderable HasKeyText where
  element he hv := by
    rcases elements?_eq_some he with rfl | rfl <;> cases hv <;> assumption
  entry hv := hv.entries
  name s := ⟨s.toList, by rw [keyText]⟩
  list := .list
  ofEntries := renderable_ofEntries

theorem renderable_of_verdict {n : Nat} {v y : Value} {s : Shape}
    (h : verdict table d n v s = .ok y) (hv : Renderable v) : Renderable y := by
  refine inherited_renderable.of_verdict (Q := fun _ => True) (fun _ _ _ _ => trivial)
    (fun {v s y} _ h hv => ?_) (fun _ _ => trivial) h hv
  rcases leaf?_eq_some h with rfl | ⟨-, m, -, rfl⟩
  · exact hv
  · cases d with
    | decode => exact .moment m
    | encode => exact .text _

theorem renderable_of_convertAs {type : String} {v y : Value} {c : Cache} (hc : c.Faithful)
    (h : (Codec.convertAs table d type v c).1 = .ok y) (hv : Renderable v) : Renderable y := by
  cases hg : table.get? type with
  | none =>
      rw [Codec.convertAs, hg] at h
      cases h
  | some s =>
      have htype : type ∈ table.names := List.mem_map_of_mem (Table.mem_entries_of_get? hg)
      rw [convertAs_eq_run htype v hc] at h
      exact renderable_of_verdict (run_eq_ok.mp h) hv

end Conversion

end Conform
