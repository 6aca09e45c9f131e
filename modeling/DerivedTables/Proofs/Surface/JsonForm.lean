import DerivedTables.Surface.Json

/-!
The JSON form of a program reads back as the program, and what a reader may leave out or put in does
not change what is read.
-/

namespace DerivedTables

namespace Json

/-! Fuel. -/

theorem depth_pos (j : Json) : 0 < j.depth := by
  cases j <;> simp [depth]

theorem depth_le_items {items : List Json} {item : Json} (held : item ∈ items) : item.depth ≤ depthItems items := by
  induction items with
  | nil => simp at held
  | cons head rest ih =>
    rw [depthItems]
    rcases List.mem_cons.mp held with rfl | later
    · exact Nat.le_max_left _ _
    · exact Nat.le_trans (ih later) (Nat.le_max_right _ _)

theorem depth_le_fields {fields : List (String × Json)} {name : String} {value : Json}
    (found : fields.lookup name = some value) : value.depth ≤ depthFields fields := by
  induction fields with
  | nil => simp at found
  | cons head rest ih =>
    obtain ⟨key, first⟩ := head
    rw [depthFields]
    rw [List.lookup_cons] at found
    split at found
    · obtain rfl := Option.some.inj found
      exact Nat.le_max_left _ _
    · exact Nat.le_trans (ih found) (Nat.le_max_right _ _)

theorem depth_field? {j value : Json} {name : String} (found : j.field? name = some value) : value.depth < j.depth := by
  cases j with
  | object fields => exact Nat.lt_succ_of_le (depth_le_fields found)
  | _ => simp [field?] at found

theorem depth_item {j value item : Json} {name : String} {items : List Json} (found : j.field? name = some value)
    (read : value.asArray? = some items) (held : item ∈ items) : item.depth < j.depth := by
  cases value with
  | array _ =>
    obtain rfl := Option.some.inj read
    have outer := depth_field? found
    rw [depth] at outer
    have inner := depth_le_items held
    omega
  | _ => simp [asArray?] at read

/-! Fields read by two readers that agree on everything below the value. -/

section Below

variable {α : Type} {j : Json} {read other : Json → Option α}

theorem bind_field?_congr (name : String) (agree : ∀ v : Json, v.depth < j.depth → read v = other v) :
    (j.field? name).bind read = (j.field? name).bind other := by
  cases found : j.field? name with
  | none => rfl
  | some value => exact agree value (depth_field? found)

theorem optional?_congr (name : String) (agree : ∀ v : Json, v.depth < j.depth → read v = other v) :
    j.optional? name read = j.optional? name other := by
  unfold optional?
  cases found : j.field? name with
  | none => rfl
  | some value =>
    cases value <;> first | rfl | simp only [agree _ (depth_field? found)]

theorem mapM_congr {items : List Json} (agree : ∀ item ∈ items, read item = other item) :
    items.mapM read = items.mapM other := by
  induction items with
  | nil => rfl
  | cons item rest ih =>
    rw [List.mapM_cons, List.mapM_cons, agree item (by simp), ih fun v held => agree v (by simp [held])]

theorem arrayField?_congr (name : String) (agree : ∀ v : Json, v.depth < j.depth → read v = other v) :
    j.arrayField? name read = j.arrayField? name other := by
  unfold arrayField?
  cases found : j.field? name with
  | none => rfl
  | some value =>
    cases read : value.asArray? with
    | none => simp [read]
    | some items =>
      have same := mapM_congr fun item held => agree item (depth_item found read held)
      simp [read, same]

end Below

end Json

attribute [local simp] Expr.ofTagged? in
theorem Expr.ofJsonBy?_congr {j : Json} {read other : Json → Option Expr}
    (agree : ∀ v : Json, v.depth < j.depth → read v = other v) : Expr.ofJsonBy? read j = Expr.ofJsonBy? other j := by
  simp only [Expr.ofJsonBy?, Expr.ofTagged?, Expr.ofTagged?.sub, Json.bind_field?_congr _ agree, Json.optional?_congr _ agree,
    Json.arrayField?_congr _ agree]

theorem Expr.ofJsonWithin?_eq {n : Nat} : ∀ {m : Nat} {j : Json}, j.depth ≤ n → j.depth ≤ m →
    Expr.ofJsonWithin? n j = Expr.ofJsonWithin? m j := by
  induction n with
  | zero =>
    intro m j deep
    have := j.depth_pos
    omega
  | succ n ih =>
    intro m j deep enough
    have := j.depth_pos
    obtain ⟨m, rfl⟩ : ∃ k, m = k + 1 := ⟨m - 1, by omega⟩
    exact Expr.ofJsonBy?_congr fun v below => ih (by omega) (by omega)

theorem Expr.ofJson?_eq (j : Json) : Expr.ofJson? j = Expr.ofJsonBy? Expr.ofJson? j := by
  have deep := j.depth_pos
  obtain ⟨n, depth⟩ : ∃ n, j.depth = n + 1 := ⟨j.depth - 1, by omega⟩
  rw [Expr.ofJson?, depth]
  exact Expr.ofJsonBy?_congr fun v below => Expr.ofJsonWithin?_eq (by omega) (Nat.le_refl _)


namespace Json

/-- What a value of the JSON form stands for; `whole` is a value with no fields of its own. -/
inductive Shape where
  | program
  | statement
  | member
  | declared
  | param
  | expr
  | span
  | whole
  | list (item : Shape)
  deriving DecidableEq

namespace Shape

@[reducible] def Result : Shape → Type
  | program => Program
  | statement => Statement
  | member => Member
  | declared => Declared
  | param => Param
  | expr => Expr
  | span => Span
  | whole => Json
  | list item => List item.Result

def read : (shape : Shape) → Json → Option shape.Result
  | program => Program.ofJson?
  | statement => Statement.ofJson?
  | member => Member.ofJson?
  | declared => Declared.ofJson?
  | param => Param.ofJson?
  | expr => Expr.ofJson?
  | span => Span.ofJson?
  | whole => some
  | list item => fun j => j.asArray?.bind fun items => items.mapM item.read

/-- The tags an object may have and the fields it has with each; the tag is a field like any other. -/
def layouts : Shape → List (Option String × List (String × Shape))
  | program => [(none, [("statements", .list .statement)])]
  | statement =>
    [(some "Definition",
        [("type", .whole), ("name", .whole), ("members", .list .member), ("span", .span)]),
      (some "Assignment", [("type", .whole), ("name", .whole), ("value", .expr), ("span", .span)]),
      (some "Expression", [("type", .whole), ("expr", .expr)])]
  | member =>
    [(some "Property", [("type", .whole), ("name", .whole), ("ty", .declared), ("span", .span)]),
      (some "Derived", [("type", .whole), ("name", .whole), ("expr", .expr), ("span", .span)]),
      (some "Function",
        [("type", .whole), ("name", .whole), ("params", .list .param), ("body", .expr), ("span", .span)])]
  | declared =>
    [(some "Named", [("type", .whole), ("base", .whole), ("array", .whole)]),
      (some "Context", [("type", .whole), ("name", .whole)])]
  | param => [(none, [("name", .whole), ("ty", .declared), ("span", .span)])]
  | expr =>
    [("String", [("value", .whole)]), ("Number", [("value", .whole)]), ("Boolean", [("value", .whole)]),
      ("Identifier", [("name", .whole)]), ("Context", [("name", .whole)]),
      ("Binary", [("op", .whole), ("lhs", .expr), ("rhs", .expr)]),
      ("Member", [("object", .expr), ("property", .whole)]),
      ("Lambda", [("params", .list .param), ("body", .expr)]),
      ("Call", [("callee", .expr), ("args", .list .expr)]),
      ("If", [("condition", .expr), ("then_branch", .expr), ("else_branch", .expr)]),
      ("Let", [("name", .whole), ("value", .expr)]), ("Block", [("exprs", .list .expr)]),
      ("Return", [("value", .expr)]), ("Postfix", [("operand", .expr)]),
      ("Paren", [("inner", .expr)])].map fun layout =>
        (some layout.1, ("type", .whole) :: ("span", .span) :: layout.2)
  | span => [(none, [("start", .whole), ("end", .whole)])]
  | whole | list _ => []

def optional : Shape → List String
  | param => ["ty", "span"]
  | expr => ["span", "else_branch"]
  | statement | member => ["span"]
  | _ => []

def Has (shape : Shape) (j : Json) (fields : List (String × Shape)) : Prop :=
  ∃ tag, (tag, fields) ∈ shape.layouts ∧ ∀ name ∈ tag, j.field? "type" = some (.string name)

end Shape

/-- The second value comes from the first by putting in fields that its objects do not have and
leaving out optional fields that are null, anywhere in it. -/
inductive Loosened : Shape → Json → Json → Prop where
  | refl (shape : Shape) (j : Json) : Loosened shape j j
  | trans {shape : Shape} {a b c : Json} :
      Loosened shape a b → Loosened shape b c → Loosened shape a c
  | add {shape : Shape} {fields : List (String × Shape)} {before after : List (String × Json)}
      {name : String} (value : Json) (has : shape.Has (.object (before ++ after)) fields)
      (unknown : name ∉ fields.map Prod.fst) :
      Loosened shape (.object (before ++ after)) (.object (before ++ (name, value) :: after))
  | drop {shape : Shape} {fields : List (String × Shape)} {before after : List (String × Json)}
      {name : String} (has : shape.Has (.object (before ++ (name, .null) :: after)) fields)
      (optional : name ∈ shape.optional) (once : name ∉ after.map Prod.fst) :
      Loosened shape (.object (before ++ (name, .null) :: after)) (.object (before ++ after))
  | field {shape part : Shape} {fields : List (String × Shape)}
      {before after : List (String × Json)} {name : String} {value looser : Json}
      (has : shape.Has (.object (before ++ (name, value) :: after)) fields)
      (known : (name, part) ∈ fields) :
      Loosened part value looser →
      Loosened shape (.object (before ++ (name, value) :: after))
        (.object (before ++ (name, looser) :: after))
  | item {shape : Shape} {before after : List Json} {value looser : Json} :
      Loosened shape value looser →
      Loosened (.list shape) (.array (before ++ value :: after)) (.array (before ++ looser :: after))

def ReadAlike (fields : List (String × Shape)) (j other : Json) : Prop :=
  ∀ field ∈ fields,
    (j.field? field.1).bind field.2.read = (other.field? field.1).bind field.2.read ∧
      j.optional? field.1 field.2.read = other.optional? field.1 field.2.read

attribute [local simp] Shape.layouts Shape.read Expr.ofTagged?

theorem arrayField?_eq (shape : Shape) (j : Json) (name : String) :
    j.arrayField? name shape.read = (j.field? name).bind (Shape.list shape).read := rfl

theorem bind_read {α β : Type} {found other : Option Json} {read : Json → Option α}
    (alike : found.bind read = other.bind read) (next : α → Option β) :
    (found.bind fun v => (read v).bind next) = other.bind fun v => (read v).bind next := by
  rw [← Option.bind_assoc, alike, Option.bind_assoc]

variable {shape : Shape} {fields : List (String × Shape)} {j other : Json}

theorem Shape.Has.untagged {known : List (String × Shape)} (has : shape.Has j fields) (alike : ReadAlike fields j other)
    (only : shape.layouts = [(none, known)]) : ReadAlike known j other := by
  obtain ⟨tag, listed, -⟩ := has
  rw [only, List.mem_singleton, Prod.mk.injEq] at listed
  exact listed.2 ▸ alike

/-- A tagged object is read alike if it is with each tag that it may have. -/
theorem Shape.Has.tagged {α : Type} {read : Json → Option α} (has : shape.Has j fields) (alike : ReadAlike fields j other)
    (all : ∀ layout ∈ shape.layouts, layout.1.isSome ∧ ("type", Shape.whole) ∈ layout.2)
    (each : ∀ layout ∈ shape.layouts, ∀ tag ∈ layout.1, j.field? "type" = some (.string tag) →
      other.field? "type" = some (.string tag) → ReadAlike layout.2 j other → read j = read other) : read j = read other := by
  obtain ⟨tag, listed, tagged⟩ := has
  obtain ⟨some_, tagField⟩ := all _ listed
  obtain ⟨tag, rfl⟩ := Option.isSome_iff_exists.mp some_
  have here := tagged tag rfl
  have there := (alike _ tagField).1
  simp only [Shape.read, Option.bind_fun_some, here] at there
  exact each _ listed tag rfl here there.symm alike

theorem expr_read_eq (has : Shape.expr.Has j fields) (alike : ReadAlike fields j other) : Expr.ofJson? j = Expr.ofJson? other := by
  refine has.tagged alike (by decide) ?_
  have params := arrayField?_eq .param
  have exprs := arrayField?_eq .expr
  simp only [Shape.read] at params exprs
  simp only [Shape.layouts, ReadAlike, List.map_cons, List.map_nil, List.forall_mem_cons, Shape.read, Option.bind_fun_some,
    Option.mem_some, forall_eq']
  refine ⟨?_, ?_, ?_, ?_, ?_, ?_, ?_, ?_, ?_, ?_, ?_, ?_, ?_, ?_, ?_, nofun⟩
  all_goals
    intro here there alike
    rw [Expr.ofJson?_eq j, Expr.ofJson?_eq other]
    simp only [Expr.ofJsonBy?, tag?, here, there, Option.bind_eq_bind, Option.bind_some]
    simp only [Expr.ofTagged?, Expr.ofTagged?.sub, stringField?, params, exprs, alike.2, Option.bind_eq_bind]

theorem statement_read_eq (has : Shape.statement.Has j fields) (alike : ReadAlike fields j other) :
    Statement.ofJson? j = Statement.ofJson? other := by
  refine has.tagged alike (by decide) ?_
  have members := arrayField?_eq .member
  simp only [Shape.read] at members
  simp only [Shape.layouts, ReadAlike, List.forall_mem_cons, Shape.read, Option.bind_fun_some, Option.mem_some, forall_eq']
  refine ⟨?_, ?_, ?_, nofun⟩ <;> intro here there alike
  all_goals simp [Statement.ofJson?, stringField?, asString?, exprField?, members, here, there, alike.2]

theorem member_read_eq (has : Shape.member.Has j fields) (alike : ReadAlike fields j other) :
    Member.ofJson? j = Member.ofJson? other := by
  refine has.tagged alike (by decide) ?_
  have params := arrayField?_eq .param
  simp only [Shape.read] at params
  simp only [Shape.layouts, ReadAlike, List.forall_mem_cons, Shape.read, Option.bind_fun_some, Option.mem_some, forall_eq']
  refine ⟨?_, ?_, ?_, nofun⟩ <;> intro here there alike
  all_goals simp [Member.ofJson?, tag?, stringField?, exprField?, params, here, there, alike.2, bind_read alike.2.2.1.1]

theorem declared_read_eq (has : Shape.declared.Has j fields) (alike : ReadAlike fields j other) :
    Declared.ofJson? j = Declared.ofJson? other := by
  refine has.tagged alike (by decide) ?_
  simp only [Shape.layouts, ReadAlike, List.forall_mem_cons, Shape.read, Option.bind_fun_some, Option.mem_some, forall_eq']
  refine ⟨?_, ?_, nofun⟩ <;> intro here there alike
  all_goals simp [Declared.ofJson?, tag?, stringField?, here, there, alike.2]

theorem Shape.Has.read_eq (has : shape.Has j fields) (alike : ReadAlike fields j other) :
    shape.read j = shape.read other := by
  cases shape with
  | program =>
    have statements := arrayField?_eq .statement
    have known := has.untagged alike rfl
    simp only [ReadAlike, List.forall_mem_cons, Shape.read] at known statements
    simp [Shape.read, Program.ofJson?, statements, known]
  | statement => exact statement_read_eq has alike
  | member => exact member_read_eq has alike
  | declared => exact declared_read_eq has alike
  | param =>
    have known := has.untagged alike rfl
    simp only [ReadAlike, List.forall_mem_cons, Shape.read, Option.bind_fun_some] at known
    simp [Shape.read, Param.ofJson?, stringField?, known]
  | expr => exact expr_read_eq has alike
  | span =>
    have known := has.untagged alike rfl
    simp only [ReadAlike, List.forall_mem_cons, Shape.read, Option.bind_fun_some] at known
    simp [Shape.read, Span.ofJson?, known]
  | whole | list =>
    obtain ⟨tag, listed, -⟩ := has
    simp [layouts] at listed

/-! One step of loosening leaves every field that an object has read alike. -/

theorem Shape.field_unique (shape : Shape) : ∀ layout ∈ shape.layouts,
    ∀ field ∈ layout.2, ∀ other ∈ layout.2, field.1 = other.1 → field.2 = other.2 := by
  cases shape with
  | list => simp [layouts]
  | _ => decide

theorem Shape.optional_ne_whole (shape : Shape) :
    ∀ layout ∈ shape.layouts, ∀ field ∈ layout.2, field.1 ∈ shape.optional → field.2 ≠ .whole := by
  cases shape with
  | list => simp [layouts]
  | _ => decide

theorem Shape.read_null (some_ : shape ≠ .whole) : shape.read .null = none := by
  cases shape with
  | whole => exact absurd rfl some_
  | _ => rfl

variable {α : Type} {read : Json → Option α} {before after : List (String × Json)} {name : String} {value looser : Json}

theorem field?_insert (before after : List (String × Json)) (name key : String) (value : Json) :
    (object (before ++ (name, value) :: after)).field? key = (before.lookup key).or
    (if key = name then some value else after.lookup key) := by
  simp only [field?, List.lookup_append, List.lookup_cons]
  by_cases same : key = name
  · simp [same]
  · simp [same, beq_eq_false_iff_ne.mpr same]

theorem optional?_of_some (found : j.field? name = some value) (given : value ≠ .null) :
    j.optional? name read = (read value).map some := by
  unfold optional?
  rw [found]
  cases value with
  | null => exact absurd rfl given
  | _ => rfl

theorem readAlike_of_field? (same : ∀ field ∈ fields, j.field? field.1 = other.field? field.1) : ReadAlike fields j other := by
  intro field held
  simp [optional?, same field held]

theorem readAlike_add (value : Json) (unknown : name ∉ fields.map Prod.fst) :
    ReadAlike fields (.object (before ++ after)) (.object (before ++ (name, value) :: after)) := by
  refine readAlike_of_field? fun field held => ?_
  have other : field.1 ≠ name := by
    rintro rfl
    exact unknown (List.mem_map_of_mem held)
  rw [field?_insert, if_neg other, field?, List.lookup_append]

theorem readAlike_drop (once : name ∉ after.map Prod.fst) (given : ∀ field ∈ fields, field.1 = name → field.2 ≠ .whole)
    : ReadAlike fields (.object (before ++ (name, .null) :: after)) (.object (before ++ after)) := by
  intro field held
  have here := field?_insert before after name field.1 .null
  have there : (object (before ++ after)).field? field.1 = (before.lookup field.1).or (after.lookup field.1) := by
    rw [field?, List.lookup_append]
  cases earlier : before.lookup field.1 with
  | some first => simp [optional?, here, there, earlier]
  | none =>
    by_cases same : field.1 = name
    · have absent := Shape.read_null (given field held same)
      subst same
      have missing : after.lookup field.1 = none := by
        rw [List.lookup_eq_none_iff]
        intro entry later
        exact bne_iff_ne.mpr fun same => once (same ▸ List.mem_map_of_mem later)
      simp [optional?, here, there, earlier, missing, absent]
    · simp [optional?, here, there, earlier, same]

theorem readAlike_field {part : Shape} (only : ∀ field ∈ fields, field.1 = name → field.2 = part)
    (null : value = .null ↔ looser = .null) (read : part.read value = part.read looser) :
    ReadAlike fields (.object (before ++ (name, value) :: after)) (.object (before ++ (name, looser) :: after)) := by
  intro field held
  have here := field?_insert before after name field.1 value
  have there := field?_insert before after name field.1 looser
  by_cases hidden : before.lookup field.1 = none ∧ field.1 = name
  · obtain ⟨earlier, same⟩ := hidden
    have shape := only field held same
    subst same
    simp only [earlier, Option.none_or, ↓reduceIte] at here there
    rw [shape, here, there]
    refine ⟨read, ?_⟩
    by_cases absent : value = .null
    · simp [optional?, absent, null.mp absent]
    · rw [optional?_of_some here absent, optional?_of_some there fun h => absent (null.mpr h), read]
  · have same : (object (before ++ (name, value) :: after)).field? field.1 =
        (object (before ++ (name, looser) :: after)).field? field.1 := by
      rw [here, there]
      cases earlier : before.lookup field.1 with
      | some first => rfl
      | none => simp [show field.1 ≠ name from fun h => hidden ⟨earlier, h⟩]
    simp [optional?, same]

theorem mapM_insert (same : read value = read looser) (before after : List Json) :
    (before ++ value :: after).mapM read = (before ++ looser :: after).mapM read := by
  simp only [List.mapM_append, List.mapM_cons, same]

theorem Loosened.read_eq (loosened : Loosened shape j other) :
    (j = .null ↔ other = .null) ∧ shape.read j = shape.read other := by
  induction loosened with
  | refl => exact ⟨Iff.rfl, rfl⟩
  | trans _ _ first second => exact ⟨first.1.trans second.1, first.2.trans second.2⟩
  | add value has unknown => exact ⟨by simp, has.read_eq (readAlike_add value unknown)⟩
  | @drop shape fields before after name has optional once =>
    refine ⟨by simp, has.read_eq (readAlike_drop once fun field held same => ?_)⟩
    obtain ⟨tag, listed, -⟩ := has
    exact shape.optional_ne_whole _ listed field held (same ▸ optional)
  | @field shape part fields before after name value looser has known _ ih =>
    refine ⟨by simp, has.read_eq (readAlike_field (fun field held same => ?_) ih.1 ih.2)⟩
    obtain ⟨tag, listed, -⟩ := has
    exact shape.field_unique _ listed field held _ known same
  | item _ ih => exact ⟨by simp, mapM_insert ih.2 _ _⟩

/-! What is written for each shape reads back. -/

end Json

theorem Span.ofJson?_toJson (span : Span) : Span.ofJson? span.toJson = some span := by
  have start := span.start.toNat_lt
  have stop := span.stop.toNat_lt
  simp [Span.ofJson?, Span.toJson, Json.field?, List.lookup_cons, Json.nat, Json.offset?, Json.asNat?, UInt32.size, start, stop]

theorem Json.optional?_orNull {α : Type} {write : α → Json} {read : Json → Option α}
    {j : Json} {name : String} {value : Option α} (found : j.field? name = some (orNull write value))
    (given : ∀ a, write a ≠ .null) (back : ∀ a, read (write a) = some a) : j.optional? name read = some value := by
  cases value with
  | none => simp [optional?, found, orNull]
  | some a =>
    rw [orNull] at found
    rw [optional?_of_some found (given a), back a, Option.map_some]

theorem Json.optional?_span {j : Json} {span : Option Span}
    (found : j.field? "span" = some (orNull Span.toJson span)) :
    j.optional? "span" Span.ofJson? = some span :=
  optional?_orNull found (by simp [Span.toJson]) Span.ofJson?_toJson

theorem Declared.ofJson?_toJson (declared : Declared) : Declared.ofJson? declared.toJson = some declared := by
  cases declared <;>
    simp [Declared.ofJson?, Declared.toJson, Json.tag?, Json.stringField?, Json.field?, List.lookup_cons, Json.asString?, Json.asBool?]

theorem Param.ofJson?_toJson (param : Param) : Param.ofJson? param.toJson = some param := by
  have declared : param.toJson.optional? "ty" Declared.ofJson? = some param.declared :=
    Json.optional?_orNull rfl (fun declared => by cases declared <;> simp [Declared.toJson])
      Declared.ofJson?_toJson
  have span := Json.optional?_span (j := param.toJson) rfl
  have name : param.toJson.stringField? "name" = some param.name := rfl
  simp [Param.ofJson?, declared, span, name]

theorem Json.mapM_map {α : Type} {write : α → Json} {read : Json → Option α}
    (back : ∀ a, read (write a) = some a) (items : List α) : (items.map write).mapM read = some items := by
  induction items with
  | nil => rfl
  | cons a rest ih => simp [back a, ih]

theorem Json.field?_tagged_span {tag : String} {span : Option Span} {fields : List (String × Json)}
    (spanless : fields.lookup "span" = none) :
    (Json.tagged tag span fields).field? "span" = some (Json.orNull Span.toJson span) := by
  simp [Json.tagged, Json.field?, List.lookup_append, List.lookup_cons, spanless]

theorem Expr.ofJson?_tagged {tag : String} {span : Option Span} {fields : List (String × Json)}
    (spanless : fields.lookup "span" = none) :
    Expr.ofJson? (Json.tagged tag span fields) =
      Expr.ofTagged? Expr.ofJson? (Json.tagged tag span fields) span tag := by
  have read : (Json.tagged tag span fields).tag? Expr.tags = some tag := rfl
  rw [Expr.ofJson?_eq]
  simp [Expr.ofJsonBy?, Json.optional?_span (Json.field?_tagged_span spanless), read]

theorem Expr.toJson_ne_null (expr : Expr) : expr.toJson ≠ .null := by
  cases expr <;> simp [Expr.toJson, Json.tagged]

attribute [local simp] Json.tagged Json.field? List.lookup_cons Json.stringField? Json.asString? Json.arrayField? Json.asArray?
  Json.asBool? Json.exprField? Json.tag? Expr.ofTagged? Expr.ofTagged?.sub

mutual
theorem Expr.ofJson?_toJson (expr : Expr) : Expr.ofJson? expr.toJson = some expr := by
  match expr with
  | .string .. | .number .. | .boolean .. | .identifier .. | .context .. =>
    rw [Expr.toJson, Expr.ofJson?_tagged rfl]
    simp [Json.asFloat?, Json.Number.toFloat]
  | .binary _ op lhs rhs =>
    rw [Expr.toJson, Expr.ofJson?_tagged rfl]
    simp [Expr.ofJson?_toJson lhs, Expr.ofJson?_toJson rhs]
  | .member _ source property =>
    rw [Expr.toJson, Expr.ofJson?_tagged rfl]
    simp [Expr.ofJson?_toJson source]
  | .lambda _ params body =>
    rw [Expr.toJson, Expr.ofJson?_tagged rfl]
    simp [Json.mapM_map Param.ofJson?_toJson, Expr.ofJson?_toJson body]
  | .call _ callee args =>
    rw [Expr.toJson, Expr.ofJson?_tagged rfl]
    simp [Expr.ofJson?_toJson callee, Expr.mapM_listToJson args]
  | .ifThen _ condition thenBranch =>
    rw [Expr.toJson, Expr.ofJson?_tagged rfl]
    simp [Json.optional?, Expr.ofJson?_toJson condition, Expr.ofJson?_toJson thenBranch]
  | .ifElse _ condition thenBranch elseBranch =>
    rw [Expr.toJson, Expr.ofJson?_tagged rfl, Expr.ofTagged?,
      Json.optional?_of_some rfl elseBranch.toJson_ne_null, Expr.ofJson?_toJson elseBranch]
    simp [Expr.ofJson?_toJson condition, Expr.ofJson?_toJson thenBranch]
  | .block _ exprs =>
    rw [Expr.toJson, Expr.ofJson?_tagged rfl]
    simp [Expr.mapM_listToJson exprs]
  | .binding _ _ inner | .ret _ inner | .rows _ inner | .paren _ inner =>
    rw [Expr.toJson, Expr.ofJson?_tagged rfl]
    simp [Expr.ofJson?_toJson inner]
theorem Expr.mapM_listToJson (exprs : List Expr) : (Expr.listToJson exprs).mapM Expr.ofJson? = some exprs := by
  match exprs with
  | [] => rfl
  | expr :: rest =>
    simp [Expr.listToJson, Expr.ofJson?_toJson expr, Expr.mapM_listToJson rest]
end

theorem Member.ofJson?_toJson (member : Member) : Member.ofJson? member.toJson = some member := by
  cases member with
  | property name declared span =>
    have given := Json.optional?_span (j := (Member.property name declared span).toJson) rfl
    rw [Member.ofJson?, given]
    simp [Member.toJson, Declared.ofJson?_toJson declared]
  | derived name expr span =>
    have given := Json.optional?_span (j := (Member.derived name expr span).toJson) rfl
    rw [Member.ofJson?, given]
    simp [Member.toJson, Expr.ofJson?_toJson expr]
  | method name params body span =>
    have given := Json.optional?_span (j := (Member.method name params body span).toJson) rfl
    rw [Member.ofJson?, given]
    simp [Member.toJson, Json.mapM_map Param.ofJson?_toJson, Expr.ofJson?_toJson body]

theorem Statement.ofJson?_toJson (statement : Statement) : Statement.ofJson? statement.toJson = some statement := by
  cases statement with
  | definition name members span =>
    have given := Json.optional?_span (j := (Statement.definition name members span).toJson) rfl
    rw [Statement.ofJson?, given]
    simp [Statement.toJson, Json.mapM_map Member.ofJson?_toJson]
  | assignment name value span =>
    have given := Json.optional?_span (j := (Statement.assignment name value span).toJson) rfl
    rw [Statement.ofJson?, given]
    simp [Statement.toJson, Expr.ofJson?_toJson value]
  | expression expr =>
    simp [Statement.ofJson?, Statement.toJson, Expr.ofJson?_toJson expr]

theorem Program.ofJson?_toJson (program : Program) : Program.ofJson? program.toJson = some program := by
  simp [Program.ofJson?, Program.toJson, Json.mapM_map Statement.ofJson?_toJson]

/-- A program reads back from its JSON form, and from any form that differs from it in fields no
object has and in null spans, parameter types and else branches that are left out. -/
theorem Program.ofJson?_of_loosened {program : Program} {j : Json}
    (loosened : Json.Loosened .program program.toJson j) : Program.ofJson? j = some program :=
  loosened.read_eq.2.symm.trans program.ofJson?_toJson

/-- `greeting = if (true) "hello"`, with a field `line` that statements do not have and without the
else branch that is not there. -/
theorem Program.greeting_reads_back :
    Program.ofJson? (.object [("statements", .array [.object [("type", .string "Assignment"),
      ("line", Json.nat 7), ("name", .string "greeting"),
      ("value", .object [("type", .string "If"), ("condition", (Expr.boolean none true).toJson),
        ("then_branch", (Expr.string none "hello").toJson), ("span", .null)]),
      ("span", .null)]])]) =
    some ⟨[.assignment "greeting"
      (.ifThen none (.boolean none true) (.string none "hello")) none]⟩ := by
  have assignment : (some "Assignment", _) ∈ Json.Shape.statement.layouts := .tail _ (.head _)
  have branch : (some "If", [("type", .whole), ("span", .span), ("condition", .expr),
    ("then_branch", .expr), ("else_branch", .expr)]) ∈ Json.Shape.expr.layouts := by decide
  have dropped := @Json.Loosened.drop .expr _
    [("type", .string "If"), ("condition", (Expr.boolean none true).toJson),
      ("then_branch", (Expr.string none "hello").toJson)] [("span", .null)] "else_branch"
    ⟨_, branch, by simp [Json.field?]⟩ (by decide) (by decide)
  refine Program.ofJson?_of_loosened ?_
  refine @Json.Loosened.field .program _ _ [] [] "statements" _ _ ⟨none, .head _, by simp⟩ (.head _) ?_
  exact @Json.Loosened.item .statement [] [] _ _ <|
    .trans (@Json.Loosened.field .statement _ _ [_, _] [_] "value" _ _
        ⟨_, assignment, by simp [Json.field?]⟩ (.tail _ (.tail _ (.head _))) dropped)
      (@Json.Loosened.add .statement _ [_] [_, _, _] "line" _
        ⟨_, assignment, by simp [Json.field?]⟩ (by decide))

end DerivedTables
