import Datalog.Proofs.Json.Token

/-!
# Values are read as they were written

Writing and reading meet in the tokens of a value. Each layout writes a text that is cut into these
tokens, and the machine that takes them arrives at the value, inside whatever frames it began in. So
a written value is read back, in either layout, if its numbers are numbers.

## Main definitions

* `Value.Legible` — the numbers of a value are numbers
* `Value.tokens` — the tokens of a value
* `Value.WritesTokens` — the value is written with them

## Main results

* `Value.Legible.writesTokens` — what is written of a value is cut into its tokens
* `Reader.run_tokens` — the machine makes the value out of its tokens
* `Value.parse_write` — a written value is read back
-/

namespace Datalog.Json

variable {layout : Layout} {rest : List Char}

/-- Every number in the value is one. -/
inductive Value.Legible : Value → Prop where
  /-- The word `null`. -/
  | null : Legible .null
  /-- The word `true` or `false`. -/
  | bool (b : Bool) : Legible (.bool b)
  /-- A number. -/
  | number {literal : String} (h : IsNumber literal) : Legible (.number literal)
  /-- A string. -/
  | string (text? : Option String) : Legible (.string text?)
  /-- An array of such values. -/
  | array {items : List Value} (h : ∀ v ∈ items, Legible v) : Legible (.array items)
  /-- An object with such values. -/
  | object {members : List (Option String × Value)} (h : ∀ entry ∈ members, Legible entry.2) :
      Legible (.object members)

/-! ### The tokens of a value -/

mutual

/-- The tokens that a value is written with. -/
def Value.tokens : Value → List Token
  | .null => [.null]
  | .bool b => [.bool b]
  | .number literal => [.number literal]
  | .string text? => [.string text?]
  | .array [] => [.beginArray, .endArray]
  | .array (item :: items) => .beginArray :: item.tokens ++ itemTokens items ++ [.endArray]
  | .object [] => [.beginObject, .endObject]
  | .object ((name, v) :: members) =>
    .beginObject :: .string name :: .colon :: v.tokens ++ memberTokens members ++ [.endObject]

/-- The tokens of the items after the first. -/
def itemTokens : List Value → List Token
  | [] => []
  | item :: items => .comma :: item.tokens ++ itemTokens items

/-- The tokens of the members after the first. -/
def memberTokens : List (Option String × Value) → List Token
  | [] => []
  | (name, v) :: members => .comma :: .string name :: .colon :: v.tokens ++ memberTokens members

end

/-! ### Layouts -/

theorem isSpace_lineBreak (layout : Layout) : ∀ c ∈ layout.lineBreak.toList, isSpace c := by
  cases layout with
  | compact => simp [Layout.lineBreak]
  | indented depth =>
    intro c hc
    simp only [Layout.lineBreak, String.toList_ofList, List.mem_cons, List.mem_replicate] at hc
    obtain rfl | ⟨-, rfl⟩ := hc <;> rfl

theorem ofText_lineBreak (layout : Layout) (rest : List Char) :
    Token.ofText (layout.lineBreak.toList ++ rest) = Token.ofText rest :=
  Token.ofText_append_of_isSpace (isSpace_lineBreak layout) rest

theorem ofText_colon (layout : Layout) (rest : List Char) :
    Token.ofText (layout.colon.toList ++ rest) = (Token.ofText rest).map (.colon :: ·) := by
  cases layout with
  | compact => exact Token.ofText_mark rfl rfl rest
  | indented depth =>
    rw [show (Layout.indented depth).colon = ":" ++ " " from rfl, String.toList_append,
      List.append_assoc, Token.ofText_mark (rfl : ":".toList = [':']) rfl,
      Token.ofText_append_of_isSpace (by simp [isSpace])]

theorem endsNumber_lineBreak (layout : Layout) : EndsNumber layout.lineBreak.toList := by
  cases layout with
  | compact => exact endsNumber_nil
  | indented depth =>
    rw [Layout.lineBreak, String.toList_ofList]
    exact endsNumber_cons (by decide)

theorem endsNumber_writeItems (layout : Layout) (items : List Value) :
    EndsNumber (writeItems layout items).toList := by
  cases items with
  | nil =>
    rw [writeItems]
    exact endsNumber_nil
  | cons item items =>
    simp only [writeItems, String.toList_append, List.append_assoc]
    exact endsNumber_cons (by decide)

theorem endsNumber_writeMembers (layout : Layout) (members : List (Option String × Value)) :
    EndsNumber (writeMembers layout members).toList := by
  cases members with
  | nil =>
    rw [writeMembers]
    exact endsNumber_nil
  | cons entry members =>
    simp only [writeMembers, String.toList_append, List.append_assoc]
    exact endsNumber_cons (by decide)

/-! ### Writing -/

/-- What the writer makes of the value is cut into the tokens of the value. -/
def Value.WritesTokens (v : Value) : Prop :=
  ∀ layout {rest}, EndsNumber rest →
    Token.ofText ((v.write layout).toList ++ rest) = (Token.ofText rest).map (v.tokens ++ ·)

theorem ofText_writeItems {items : List Value} (h : ∀ v ∈ items, v.WritesTokens)
    (hrest : EndsNumber rest) :
    Token.ofText ((writeItems layout items).toList ++ rest) =
      (Token.ofText rest).map (itemTokens items ++ ·) := by
  induction items with
  | nil => simp [writeItems, itemTokens]
  | cons item items ih =>
    have hitem : item.WritesTokens := h item List.mem_cons_self
    have hitems := ih fun v hv => h v (List.mem_cons_of_mem _ hv)
    simp only [writeItems, itemTokens, String.toList_append, List.append_assoc]
    rw [Token.ofText_mark (rfl : ",".toList = [',']) rfl, ofText_lineBreak,
      hitem _ ((endsNumber_writeItems _ _).append hrest), hitems]
    simp [Function.comp_def]

theorem ofText_writeMembers {members : List (Option String × Value)}
    (h : ∀ entry ∈ members, entry.2.WritesTokens) (hrest : EndsNumber rest) :
    Token.ofText ((writeMembers layout members).toList ++ rest) =
      (Token.ofText rest).map (memberTokens members ++ ·) := by
  induction members with
  | nil => simp [writeMembers, memberTokens]
  | cons entry members ih =>
    have hentry : entry.2.WritesTokens := h entry List.mem_cons_self
    have hmembers := ih fun v hv => h v (List.mem_cons_of_mem _ hv)
    simp only [writeMembers, memberTokens, String.toList_append, List.append_assoc]
    rw [Token.ofText_mark (rfl : ",".toList = [',']) rfl, ofText_lineBreak, Token.ofText_writeString,
      ofText_colon, hentry _ ((endsNumber_writeMembers _ _).append hrest), hmembers]
    simp [Function.comp_def]

theorem Value.writesTokens_array {items : List Value} (h : ∀ v ∈ items, v.WritesTokens) :
    (array items).WritesTokens := by
  intro layout rest hrest
  cases items with
  | nil =>
    simp only [write, tokens]
    rw [show "[]" = "[" ++ "]" from rfl, String.toList_append, List.append_assoc,
      Token.ofText_mark (rfl : "[".toList = ['[']) rfl,
      Token.ofText_mark (rfl : "]".toList = [']']) rfl]
    simp [Function.comp_def]
  | cons item items =>
    have hitem : item.WritesTokens := h item List.mem_cons_self
    have hitems : ∀ v ∈ items, v.WritesTokens := fun v hv => h v (List.mem_cons_of_mem _ hv)
    have hend : EndsNumber (layout.lineBreak.toList ++ ("]".toList ++ rest)) :=
      (endsNumber_lineBreak layout).append (endsNumber_cons (by decide))
    simp only [write, tokens, String.toList_append, List.append_assoc]
    rw [Token.ofText_mark (rfl : "[".toList = ['[']) rfl, ofText_lineBreak,
      hitem _ ((endsNumber_writeItems _ _).append hend), ofText_writeItems hitems hend,
      ofText_lineBreak, Token.ofText_mark (rfl : "]".toList = [']']) rfl]
    simp [Function.comp_def]

theorem Value.writesTokens_object {members : List (Option String × Value)}
    (h : ∀ entry ∈ members, entry.2.WritesTokens) : (object members).WritesTokens := by
  intro layout rest hrest
  cases members with
  | nil =>
    simp only [write, tokens]
    rw [show "\x7b\x7d" = "\x7b" ++ "\x7d" from rfl, String.toList_append, List.append_assoc,
      Token.ofText_mark (rfl : "\x7b".toList = ['\x7b']) rfl,
      Token.ofText_mark (rfl : "\x7d".toList = ['\x7d']) rfl]
    simp [Function.comp_def]
  | cons entry members =>
    have hentry : entry.2.WritesTokens := h entry List.mem_cons_self
    have hmembers : ∀ entry ∈ members, entry.2.WritesTokens :=
      fun entry hentry => h entry (List.mem_cons_of_mem _ hentry)
    have hend : EndsNumber (layout.lineBreak.toList ++ ("\x7d".toList ++ rest)) :=
      (endsNumber_lineBreak layout).append (endsNumber_cons (by decide))
    simp only [write, tokens, String.toList_append, List.append_assoc]
    rw [Token.ofText_mark (rfl : "\x7b".toList = ['\x7b']) rfl, ofText_lineBreak,
      Token.ofText_writeString, ofText_colon,
      hentry _ ((endsNumber_writeMembers _ _).append hend), ofText_writeMembers hmembers hend,
      ofText_lineBreak, Token.ofText_mark (rfl : "\x7d".toList = ['\x7d']) rfl]
    simp [Function.comp_def]

/-- What is written of a value is cut into its tokens, in every layout. -/
theorem Value.Legible.writesTokens {v : Value} (h : v.Legible) : v.WritesTokens := by
  induction h with
  | null =>
    intro layout rest _
    rw [Value.write, Value.tokens]
    exact Token.ofText_null rest
  | bool b =>
    intro layout rest _
    have hwrite : (Value.bool b).write layout = toString b := by cases b <;> rw [Value.write] <;> rfl
    rw [hwrite, Value.tokens]
    exact Token.ofText_bool b rest
  | number hnumber =>
    intro layout rest hrest
    rw [Value.write, Value.tokens]
    exact Token.ofText_number hnumber hrest
  | string text? =>
    intro layout rest _
    rw [Value.write, Value.tokens]
    exact Token.ofText_writeString text? rest
  | array _ ih => exact Value.writesTokens_array ih
  | object _ ih => exact Value.writesTokens_object ih

/-! ### Reading -/

/-- Where an array may end, its first item may come: no value begins with the closing bracket. -/
theorem Reader.run_itemOrEnd (frames : List Frame) (v : Value) (ts : List Token) :
    (Reader.itemOrEnd frames).run (v.tokens ++ ts) =
      (Reader.value (.array [] :: frames)).run (v.tokens ++ ts) := by
  match v with
  | .null | .bool b | .number literal | .string text? | .array [] | .object [] =>
    simp [Value.tokens, run, step]
  | .array (item :: items) => simp [Value.tokens, run, step]
  | .object (entry :: members) => simp [Value.tokens, run, step]

mutual

/-- From the tokens of a value, the machine makes the value, inside the frames where it has begun. -/
theorem Reader.run_tokens (frames : List Frame) (v : Value) (ts : List Token) :
    (Reader.value frames).run (v.tokens ++ ts) = (Reader.after v frames).run ts := by
  match v with
  | .null | .bool b | .number literal | .string text? | .array [] | .object [] =>
    simp [Value.tokens, run, step, stepValue]
  | .array (item :: items) =>
    simp only [Value.tokens, List.cons_append, List.append_assoc, List.nil_append, run, step,
      stepValue, Option.bind_some]
    rw [Reader.run_itemOrEnd, Reader.run_tokens (.array [] :: frames) item,
      Reader.run_itemTokens]
    simp
  | .object ((name, v) :: members) =>
    simp only [Value.tokens, List.cons_append, List.append_assoc, List.nil_append, run, step,
      stepValue, Option.bind_some]
    rw [Reader.run_tokens (.object [] name :: frames) v, Reader.run_memberTokens]
    simp

/-- The items after the first are put behind those before. -/
theorem Reader.run_itemTokens (frames : List Frame) (before : List Value) (item : Value)
    (items : List Value) (ts : List Token) :
    (Reader.after item (.array before :: frames)).run (itemTokens items ++ .endArray :: ts) =
      (Reader.after (.array (before.reverse ++ item :: items)) frames).run ts := by
  match items with
  | [] => simp [itemTokens, run, step]
  | next :: items =>
    simp only [itemTokens, List.cons_append, List.append_assoc, run, step, Option.bind_some]
    rw [Reader.run_tokens (.array (item :: before) :: frames) next, Reader.run_itemTokens]
    simp

/-- The members after the first are put behind those before. -/
theorem Reader.run_memberTokens (frames : List Frame) (before : List (Option String × Value))
    (name : Option String) (v : Value) (members : List (Option String × Value)) (ts : List Token) :
    (Reader.after v (.object before name :: frames)).run
        (memberTokens members ++ .endObject :: ts) =
      (Reader.after (.object (before.reverse ++ (name, v) :: members)) frames).run ts := by
  match members with
  | [] => simp [memberTokens, run, step]
  | (name', next) :: members =>
    simp only [memberTokens, List.cons_append, List.append_assoc, run, step, Option.bind_some]
    rw [Reader.run_tokens (.object ((name, v) :: before) name' :: frames) next,
      Reader.run_memberTokens]
    simp

end

/-- A written value is read back. -/
theorem Value.parse_write {v : Value} (h : v.Legible) (layout : Layout) :
    parse (v.write layout) = some v := by
  have htokens := h.writesTokens layout endsNumber_nil
  rw [List.append_nil, Token.ofText_nil, Option.map_some, List.append_nil] at htokens
  have hrun := Reader.run_tokens [] v []
  rw [List.append_nil] at hrun
  simp [parse, htokens, ofTokens, hrun, Reader.run]

end Datalog.Json
