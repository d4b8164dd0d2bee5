import ScriptLexer.Lexeme.Basic
import ScriptLexer.Token.Basic

namespace ScriptLexer

inductive RecordForm where
  | unlocated
  | location
  | token
  | lexeme
  | diagnostic
  | optional (form : RecordForm)
  | reference (form : RecordForm)

namespace RecordForm

def Record : RecordForm → Type
  | unlocated => Unit
  | location => Location
  | token => Token
  | lexeme => Lexeme
  | diagnostic => Diagnostic
  | optional form => Option (Record form)
  | reference form => Reference (Record form)

instance hasLocation : (form : RecordForm) → HasLocation form.Record
  | unlocated => inferInstanceAs (HasLocation Unit)
  | location => inferInstanceAs (HasLocation Location)
  | token => inferInstanceAs (HasLocation Token)
  | lexeme => inferInstanceAs (HasLocation Lexeme)
  | diagnostic => inferInstanceAs (HasLocation Diagnostic)
  | optional form =>
    have := hasLocation form
    inferInstanceAs (HasLocation (Option form.Record))
  | reference form =>
    have := hasLocation form
    inferInstanceAs (HasLocation (Reference form.Record))

def site? : (form : RecordForm) → form.Record → Option Location
  | unlocated, _ => none
  | location, l => some l
  | token, (t : Token) => some ⟨t.start, some t.stop⟩
  | lexeme, (l : Lexeme) => some ⟨l.start, some l.stop⟩
  | diagnostic, (d : Diagnostic) => some d.location
  | optional _, none => none
  | optional form, some record => site? form record
  | reference form, ⟨record⟩ => site? form record

theorem location?_eq_site? (form : RecordForm) (record : form.Record) :
    HasLocation.location? record = form.site? record := by
  induction form with
  | unlocated => rfl
  | location => rfl
  | token => rfl
  | lexeme => rfl
  | diagnostic => rfl
  | optional form ih =>
    cases record with
    | none => rfl
    | some record => exact ih record
  | reference form ih => exact ih record.target

end RecordForm

namespace Diagnostic

def series {α : Type} [HasLocation α] (record : α) : List (DiagnosticKind × Text) → List Diagnostic
  | [] => []
  | (kind, message) :: notes => about record kind message :: series (about record kind message) notes

theorem series_eq_map {α : Type} [HasLocation α] (record : α)
    (notes : List (DiagnosticKind × Text)) :
    series record notes = notes.map fun (kind, message) =>
      ⟨kind, message, (HasLocation.location? record).getD .origin⟩ := by
  induction notes generalizing α with
  | nil => rfl
  | cons note notes ih =>
    rw [series, ih, List.map_cons, about]
    rfl

theorem series_keeps_location (form : RecordForm) (record : form.Record)
    (notes : List (DiagnosticKind × Text)) (kind : DiagnosticKind) (message : Text) :
    let site : Location := (form.site? record).getD ⟨0, none⟩
    let ds := series record (notes ++ [(kind, message)])
    ds.length = notes.length + 1 ∧
      ds.getLast? = some ⟨kind, message, ⟨site.start, site.stop?⟩⟩ ∧
      ∀ d ∈ ds, d.location.start = site.start ∧ d.location.stop? = site.stop? ∧
        (∀ stop, site.stop? = some stop → d.location.span = (site.start, stop)) ∧
        (site.stop? = none → site.start < 0xFFFFFFFFFFFFFFFF →
          d.location.span = (site.start, site.start + 1) ∧
            d.location.span.2 ≤ 0xFFFFFFFFFFFFFFFF) := by
  intro site ds
  have hds : ds = (notes ++ [(kind, message)]).map fun (kind, message) => ⟨kind, message, site⟩ := by
    apply (series_eq_map record _).trans
    rw [form.location?_eq_site?]
    rfl
  rw [hds]
  refine ⟨by simp, by simp, ?_⟩
  intro d hd
  obtain ⟨note, -, rfl⟩ := List.mem_map.mp hd
  refine ⟨rfl, rfl, ?_, ?_⟩
  · intro stop hstop
    rw [Location.span, hstop, Option.getD_some]
  · intro hstop hstart
    rw [Location.span, hstop, Option.getD_none]
    exact ⟨rfl, hstart⟩

end Diagnostic

end ScriptLexer
