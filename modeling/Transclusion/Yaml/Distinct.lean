import Transclusion.Metadata
import Transclusion.Steps
import Transclusion.Yaml.Reader

/-!
# Values that are read

A key that a mapping gives twice is stored once, so what is read has distinct keys.

* `Yaml.ofScalar_ne_map` — a text denotes no mapping;
* `Yaml.Node.distinct_of_readNode` — the value of a node has distinct keys if those of its parts
  have;
* `Yaml.distinct_of_read` — the value of a text has distinct keys.
-/

namespace Transclusion.Yaml

/-! ## Scalars -/

theorem float?_ne_map (text : String) (entries : Mapping) : float? text ≠ some (.map entries) := by
  rw [float?]
  split <;> simp

theorem getD_float?_ne_map (text : String) (entries : Mapping) :
    (float? text).getD (.str text) ≠ .map entries := by
  cases hfloat : float? text with
  | none => exact nofun
  | some value =>
    rintro rfl
    exact float?_ne_map text entries hfloat

theorem ofPlain_ne_map (text : String) (entries : Mapping) :
    ofPlain text ≠ .ok (.map entries) := by
  rw [ofPlain]
  repeat' split
  all_goals simp [getD_float?_ne_map]

theorem ofTagged_ne_map (tag : Octets) (plain : Bool) (text : String) (entries : Mapping) :
    ofTagged tag plain text ≠ .ok (.map entries) := by
  unfold ofTagged
  dsimp only
  repeat' split
  all_goals simp only [ne_eq, reduceCtorEq, not_false_eq_true, Except.ok.injEq, ofPlain_ne_map]
  next value hfloat =>
    rintro rfl
    exact float?_ne_map text entries hfloat

/-- A text denotes no mapping, whatever its tag. -/
theorem ofScalar_ne_map (tag : Option Octets) (plain : Bool) (text : String) (entries : Mapping) :
    ofScalar tag plain text ≠ .ok (.map entries) := by
  unfold ofScalar
  repeat' split
  · exact ofTagged_ne_map _ plain text entries
  · exact ofPlain_ne_map text entries
  · exact nofun

/-! ## Nodes -/

namespace Node

/-- What is read has distinct keys. -/
def ReadsDistinct (read : Reading) : Prop :=
  ∀ node followed value followed', read node followed = .ok (value, followed') → value.Distinct

theorem distinct_of_readEntries {scope : Scope} {read : Reading} (hread : ReadsDistinct read)
    {entries : List (NumberedNode × NumberedNode)} {followed followed' : Nat} {fields : Mapping}
    (h : readEntries scope read entries followed = .ok (fields, followed')) : fields.Distinct := by
  refine foldlM_eq_ok_invariant (p := fun state : Mapping × Nat => state.1.Distinct) ?_ h
    Mapping.distinct_nil
  rintro ⟨fields, followed⟩ entry ⟨fields', followed'⟩ hstep hfields
  obtain ⟨⟨key, afterKey⟩, -, hstep⟩ := bind_eq_ok.mp hstep
  obtain ⟨⟨value, afterValue⟩, hvalue, hstep⟩ := bind_eq_ok.mp hstep
  cases hstep
  exact hfields.insert (hread _ _ _ _ hvalue) key

/-- The value of a node has distinct keys if those of its parts have. -/
theorem distinct_of_readNode {scope : Scope} {parts : Option Reading}
    (hparts : ∀ read, parts = some read → ReadsDistinct read) :
    ReadsDistinct (readNode scope parts) := by
  intro node followed value followed' h
  obtain ⟨⟨node, afterNode⟩, -, h⟩ := bind_eq_ok.mp h
  cases node with
  | «alias» n => exact nomatch h
  | scalar anchor tag plain text =>
    obtain ⟨scalar, hscalar, h⟩ := bind_eq_ok.mp h
    cases h
    refine Value.distinct_of_ne_map ?_
    rintro entries rfl
    exact ofScalar_ne_map tag plain text entries hscalar
  | sequence anchor tag items =>
    obtain ⟨-, -, h⟩ := bind_eq_ok.mp h
    cases parts with
    | none => exact nomatch h
    | some read =>
      obtain ⟨⟨values, afterItems⟩, -, h⟩ := bind_eq_ok.mp h
      cases h
      exact Value.distinct_of_ne_map nofun
  | mapping anchor tag entries =>
    obtain ⟨-, -, h⟩ := bind_eq_ok.mp h
    cases parts with
    | none => exact nomatch h
    | some read =>
      obtain ⟨⟨fields, afterEntries⟩, hfields, h⟩ := bind_eq_ok.mp h
      cases h
      exact Value.distinct_map.mpr (distinct_of_readEntries (hparts read rfl) hfields)

theorem distinct_of_toValue (scope : Scope) (depth : Nat) :
    ReadsDistinct (toValue scope depth) := by
  induction depth with
  | zero => exact distinct_of_readNode nofun
  | succ depth ih =>
    refine distinct_of_readNode ?_
    rintro read ⟨⟩
    exact ih

end Node

/-- The value of a text has distinct keys. -/
theorem distinct_of_read {text : String} {value : Value} (h : read text = .ok value) :
    value.Distinct := by
  obtain ⟨tokens, -, h⟩ := bind_eq_ok.mp h
  obtain ⟨document, -, h⟩ := bind_eq_ok.mp h
  cases document with
  | none =>
    cases h
    exact Value.distinct_of_ne_map nofun
  | some node =>
    obtain ⟨⟨numbered, names⟩, -, h⟩ := bind_eq_ok.mp h
    obtain ⟨⟨value, followed⟩, hvalue, h⟩ := bind_eq_ok.mp h
    cases h
    exact Node.distinct_of_toValue _ _ _ _ _ _ hvalue

end Transclusion.Yaml
