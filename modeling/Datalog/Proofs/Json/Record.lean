import Datalog.Json.Record
import Datalog.Proofs.Json.Value

/-!
# Terms, atoms, rules and programs are read as they were written

The form of a term, an atom, a rule or a program holds no numbers, and what is read of the form is
the value that it was made of. So their texts are read back in both layouts, whatever the names in
them are. The known facts of an engine are one of these texts.

## Main definitions

* `Lossless` — everything that is written is read back

## Main results

* `Record.read?_write`, `readList?_writeList` — records and lists are read as they were written
* `lossless_of_legible` — if forms are legible and read as they were written, so are their texts
* `encodings_lossless` — terms, atoms, rules, programs and the facts of an engine are read back
-/

namespace Datalog

namespace Json

variable {α : Type}

/-! ### Records and lists -/

/-- The two fields of a record are told apart by their names. -/
theorem Record.read?_write {record : Record} (h : record.first ≠ record.second) (a b : Value) :
    record.read? (record.write a b) = some (a, b) := by
  simp [read?, write, Value.member?, h, h.symm]

theorem Record.legible_write (record : Record) {a b : Value} (ha : a.Legible) (hb : b.Legible) :
    (record.write a b).Legible := by
  refine .object fun entry hentry => ?_
  simp only [List.mem_cons, List.not_mem_nil, or_false] at hentry
  obtain rfl | rfl := hentry
  · exact ha
  · exact hb

theorem readList?_writeList {write : α → Value} {read? : Value → Option α}
    (h : ∀ a, read? (write a) = some a) (items : List α) :
    readList? read? (writeList write items) = some items := by
  simp only [readList?, writeList, Value.items?, Option.bind_some]
  induction items with
  | nil => rfl
  | cons a items ih => simp [h, ih]

theorem legible_writeList {write : α → Value} (h : ∀ a, (write a).Legible) (items : List α) :
    (writeList write items).Legible := by
  refine .array fun v hv => ?_
  obtain ⟨a, -, rfl⟩ := List.mem_map.mp hv
  exact h a

/-! ### Texts -/

/-- Everything that is written is read back as it was, on one line and indented. -/
def Lossless (write : α → Value) (read? : Value → Option α) : Prop :=
  ∀ a, (Value.parse (write a).compact).bind read? = some a ∧
    (Value.parse (write a).pretty).bind read? = some a

theorem lossless_of_legible {write : α → Value} {read? : Value → Option α}
    (hlegible : ∀ a, (write a).Legible) (hread : ∀ a, read? (write a) = some a) :
    Lossless write read? := by
  intro a
  rw [Value.compact, Value.parse_write (hlegible a), Value.pretty, Value.parse_write (hlegible a)]
  exact ⟨hread a, hread a⟩

end Json

open Json

/-! ### Terms, atoms, rules and programs -/

theorem Term.ofJson?_toJson (t : Term) : ofJson? t.toJson = some t := by
  cases t <;> rfl

theorem Term.legible_toJson (t : Term) : t.toJson.Legible := by
  cases t with
  | var name => exact .object (by simp [Value.ofString, Value.Legible.string])
  | const value => exact .object (by simp [Value.ofString, Value.Legible.string])

theorem Atom.ofJson?_toJson (a : Atom) : ofJson? a.toJson = some a := by
  have hnames : record.first ≠ record.second := by decide
  simp [ofJson?, toJson, Record.read?_write hnames, Value.ofString, Value.text?,
    readList?_writeList Term.ofJson?_toJson]

theorem Atom.legible_toJson (a : Atom) : a.toJson.Legible :=
  record.legible_write (.string _) (legible_writeList Term.legible_toJson a.terms)

theorem Rule.ofJson?_toJson (r : Rule) : ofJson? r.toJson = some r := by
  have hnames : record.first ≠ record.second := by decide
  simp [ofJson?, toJson, Record.read?_write hnames, Atom.ofJson?_toJson,
    readList?_writeList Atom.ofJson?_toJson]

theorem Rule.legible_toJson (r : Rule) : r.toJson.Legible :=
  record.legible_write r.head.legible_toJson (legible_writeList Atom.legible_toJson r.body)

theorem Program.ofJson?_toJson (p : Program) : ofJson? p.toJson = some p := by
  have hnames : record.first ≠ record.second := by decide
  simp [ofJson?, toJson, Record.read?_write hnames, readList?_writeList Rule.ofJson?_toJson,
    readList?_writeList Atom.ofJson?_toJson]

theorem Program.legible_toJson (p : Program) : p.toJson.Legible :=
  record.legible_write (legible_writeList Rule.legible_toJson p.rules)
    (legible_writeList Atom.legible_toJson p.facts)

/-! ### Main result -/

/-- **Nothing is lost in JSON.** Every term, atom, rule and program is read back from either of its
texts, whatever characters its names are made of and however many parts it has. The facts that an engine
gives out are read back as the facts that it knows, in order. -/
theorem encodings_lossless :
    Lossless Term.toJson Term.ofJson? ∧ Lossless Atom.toJson Atom.ofJson? ∧
      Lossless Rule.toJson Rule.ofJson? ∧ Lossless Program.toJson Program.ofJson? ∧
      ∀ engine : Engine,
        (Value.parse engine.factsJson).bind (readList? Atom.ofJson?) = some engine.facts := by
  have hfacts : Lossless (writeList Atom.toJson) (readList? Atom.ofJson?) :=
    lossless_of_legible (legible_writeList Atom.legible_toJson)
      (readList?_writeList Atom.ofJson?_toJson)
  exact ⟨lossless_of_legible Term.legible_toJson Term.ofJson?_toJson,
    lossless_of_legible Atom.legible_toJson Atom.ofJson?_toJson,
    lossless_of_legible Rule.legible_toJson Rule.ofJson?_toJson,
    lossless_of_legible Program.legible_toJson Program.ofJson?_toJson,
    fun engine => (hfacts engine.facts).2⟩

end Datalog
