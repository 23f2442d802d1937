import Conform.Proofs.Conversion.Final
import Conform.Proofs.Conversion.Rendering

/-!
# Conversions of values that have a text

A value has a text exactly if it can be rendered and the indentation fits into a word; a text alone
has no lines, and is rendered with every indentation (`exists_renderText_iff`).  What can be rendered
stays so when it is converted, so what a value with a text is converted to has a text for the same
indentations (`run_renders`), and `missing` is nowhere in it.
-/

namespace Conform

namespace Json

open Value Digits

/-! ## Only what can be rendered has a text -/

section

variable {style : Style}

/-- Only what can be rendered has a text in the style. -/
def OnlyRenderable (style : Style) (v : Value) : Prop :=
  ∀ ⦃level : Nat⦄ ⦃cs : List Char⦄, write style level v = .ok cs → Renderable v

theorem forall_renderable_of_writeItems {level : Nat} : ∀ {xs : List Value} {cs : List Char},
    (∀ x ∈ xs, OnlyRenderable style x) → writeItems style level xs = .ok cs →
      ∀ x ∈ xs, Renderable x
  | [], _, _, _ => List.forall_mem_nil _
  | x :: xs, _, only, h => by
      obtain ⟨hx, hxs⟩ := List.forall_mem_cons.mp only
      rw [writeItems] at h
      obtain ⟨body, hbody, h⟩ := Traversal.bind_eq_ok.mp h
      obtain ⟨rest, hrest, -⟩ := Traversal.bind_eq_ok.mp h
      exact List.forall_mem_cons.mpr ⟨hx hbody, forall_renderable_of_writeItems hxs hrest⟩

theorem forall_renderable_of_writeEntries {level : Nat} : ∀ {es : Entries} {cs : List Char},
    (∀ e ∈ es, OnlyRenderable style e.2) → writeEntries style level es = .ok cs →
      ∀ e ∈ es, HasKeyText e.1 ∧ Renderable e.2
  | [], _, _, _ => List.forall_mem_nil _
  | (k, v) :: es, _, only, h => by
      obtain ⟨hv, hes⟩ := List.forall_mem_cons.mp only
      rw [writeEntries] at h
      obtain ⟨key, hkey, h⟩ := Traversal.bind_eq_ok.mp h
      obtain ⟨body, hbody, h⟩ := Traversal.bind_eq_ok.mp h
      obtain ⟨rest, hrest, -⟩ := Traversal.bind_eq_ok.mp h
      exact List.forall_mem_cons.mpr
        ⟨⟨⟨key, hkey⟩, hv hbody⟩, forall_renderable_of_writeEntries hes hrest⟩

theorem renderable_of_write (v : Value) : OnlyRenderable style v := by
  refine byComponents (fun v only => ?_) v
  intro level cs h
  cases v with
  | null => exact .null
  | bool b => exact .bool b
  | float x => exact .float x
  | text s => exact .text s
  | date d => exact .date d
  | moment m => exact .moment m
  | int n =>
      rw [write, writeInt] at h
      by_cases hn : withinLimit n = true
      · exact .int hn
      · rw [if_neg hn] at h
        cases h
  | bytes | set | missing =>
      rw [write] at h
      cases h
  | list xs | tuple xs =>
      have hitems : ∀ x ∈ xs, Renderable x := by
        cases xs with
        | nil => exact List.forall_mem_nil _
        | cons x xs =>
            obtain ⟨hx, hxs⟩ := List.forall_mem_cons.mp only
            rw [write] at h
            obtain ⟨body, hbody, h⟩ := Traversal.bind_eq_ok.mp h
            obtain ⟨rest, hrest, -⟩ := Traversal.bind_eq_ok.mp h
            exact List.forall_mem_cons.mpr ⟨hx hbody, forall_renderable_of_writeItems hxs hrest⟩
      first
      | exact .list hitems
      | exact .tuple hitems
  | map es =>
      have hvalues : ∀ e ∈ es, OnlyRenderable style e.2 :=
        fun e he => only e.2 (value_mem_components he)
      cases es with
      | nil => exact .map (List.forall_mem_nil _) (List.forall_mem_nil _)
      | cons e es =>
          obtain ⟨hv, hes⟩ := List.forall_mem_cons.mp hvalues
          rw [write] at h
          obtain ⟨key, hkey, h⟩ := Traversal.bind_eq_ok.mp h
          obtain ⟨body, hbody, h⟩ := Traversal.bind_eq_ok.mp h
          obtain ⟨rest, hrest, -⟩ := Traversal.bind_eq_ok.mp h
          have hrest := forall_renderable_of_writeEntries hes hrest
          exact .map (List.forall_mem_cons.mpr ⟨⟨key, hkey⟩, fun e he => (hrest e he).1⟩)
            (List.forall_mem_cons.mpr ⟨hv hbody, fun e he => (hrest e he).2⟩)

end

theorem Renderable.everywhere_ne_missing {v : Value} (h : Renderable v) :
    v.Everywhere (· ≠ .missing) := by
  have hkey {k : Value} (hk : HasKeyText k) : k.Everywhere (· ≠ .missing) := by
    obtain ⟨cs, hcs⟩ := hk
    cases k with
    | tuple | bytes | date | moment | missing | list | map | set => exact nomatch hcs
    | _ => exact ⟨nofun, List.forall_mem_nil _⟩
  induction h with
  | list _ ih => exact ⟨nofun, ih⟩
  | tuple _ ih => exact ⟨nofun, ih⟩
  | map keys _ ih =>
      refine ⟨nofun, fun c hc => ?_⟩
      obtain ⟨e, he, hc⟩ := List.mem_flatMap.mp hc
      rcases List.mem_cons.mp hc with rfl | hc
      · exact hkey (keys e he)
      · rw [List.mem_singleton.mp hc]
        exact ih e he
  | _ => exact ⟨nofun, List.forall_mem_nil _⟩

end Json

namespace Codec

open Json

/-- What has a text: whatever can be rendered, with an indentation that fits into a word. -/
theorem exists_renderText_iff {indent : Option Int} {v : Value} :
    (∃ text, renderText indent v = .ok text) ↔
      Renderable v ∧ ((∃ s, v = .text s) ∨ IsIndent indent) := by
  by_cases htext : ∃ s, v = .text s
  · obtain ⟨s, rfl⟩ := htext
    exact iff_of_true ⟨_, by rw [renderText, render_text]; rfl⟩ ⟨.text s, .inl ⟨s, rfl⟩⟩
  constructor
  · rintro ⟨text, h⟩
    have hindent : IsIndent indent := by
      by_cases hindent : IsIndent indent
      · exact hindent
      · rw [renderText, render_eq_error hindent fun s hs => htext ⟨s, hs⟩] at h
        cases h
    obtain ⟨layout, hlayout⟩ := exists_layout_iff.mpr hindent
    rw [renderText, render_eq_write hlayout] at h
    cases hwrite : write ⟨layout, false, true⟩ 0 v with
    | ok cs => exact ⟨renderable_of_write v hwrite, .inr hindent⟩
    | error reason =>
        rw [hwrite] at h
        cases h
  · rintro ⟨hv, ⟨s, rfl⟩ | hindent⟩
    · exact absurd ⟨s, rfl⟩ htext
    · exact hv.exists_renderText hindent

end Codec

namespace Conversion

open Value Json Codec

variable {table : Table} {d : Direction}

/-- What a value with a text is converted to has a text for every indentation that fits into a word,
and `missing` is nowhere in it. -/
theorem run_renders {given : Option Int} {text : String} {s v : Value} {shape : Shape}
    (hs : renderText given s = .ok text) (h : run table d s shape = .ok v) :
    v.Everywhere (· ≠ .missing) ∧
      ∀ indent, (∃ text, renderText indent v = .ok text) ↔
        (∃ t, v = .text t) ∨ IsIndent indent := by
  have hv : Renderable v :=
    renderable_of_verdict (run_eq_ok.mp h) (exists_renderText_iff.mp ⟨text, hs⟩).1
  exact ⟨hv.everywhere_ne_missing, fun indent => exists_renderText_iff.trans (and_iff_right hv)⟩

/-- A map with a truth value as its key, and a field that is not there. -/
theorem run_renders_note :
    (∃ text, renderText none (.map [(.bool true, .tuple [.null])]) = .ok text) ∧
      run .empty .encode (.map [(.bool true, .tuple [.null])])
          (.object 0 [⟨"note", "note", .union [.primitive .string, .absent], none⟩] (.array .any)) =
        .ok (.map [(.bool true, .list [.null])]) ∧
      (Value.map [(.bool true, .list [.null])]).Everywhere (· ≠ .missing) ∧
      ∀ indent, (∃ text, renderText indent (.map [(.bool true, .list [.null])]) = .ok text) ↔
        (∃ t, Value.map [(.bool true, .list [.null])] = .text t) ∨ IsIndent indent := by
  have htext : ∃ text, renderText none (.map [(.bool true, .tuple [.null])]) = .ok text :=
    exists_renderText_iff.mpr ⟨.map
      (List.forall_mem_singleton.mpr ⟨"true".toList, rfl⟩)
      (List.forall_mem_singleton.mpr (.tuple (List.forall_mem_singleton.mpr .null))),
      .inr nofun⟩
  have hrun : run .empty .encode (.map [(.bool true, .tuple [.null])])
      (.object 0 [⟨"note", "note", .union [.primitive .string, .absent], none⟩] (.array .any)) =
        .ok (.map [(.bool true, .list [.null])]) := by
    with_unfolding_all rfl
  obtain ⟨text, h⟩ := htext
  exact ⟨⟨text, h⟩, hrun, run_renders h hrun⟩

/-- The empty list has a text and is converted to itself, but has no text with an indentation that
fits into no word. -/
theorem not_renders_everywhere :
    (∃ text, renderText none (.list []) = .ok text) ∧
      run .empty .decode (.list []) .any = .ok (.list []) ∧
      ∀ text, renderText (some 9223372036854775808) (.list []) ≠ .ok text :=
  ⟨⟨_, rfl⟩, by with_unfolding_all rfl, by intro text h; cases h⟩

end Conversion

end Conform
