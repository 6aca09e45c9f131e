import DerivedTables.Proofs.Text.Marks
import DerivedTables.Tree.Node
import Mathlib.Order.Filter.AtTopBot.Basic

/-!
Reading expressions back from the text they are shown as.
-/

namespace DerivedTables

/-- What the text of an expression is to show. -/
inductive Form where
  | string (value : String)
  | boolean (value : Bool)
  | name (x : String)
  | binary (op : Operator) (lhs rhs : Form)
  | access (source : Form) (member : String)
  | function (called : Option String) (params : List (String × Option String)) (body : Form)
  | invoke (callee : Form) (args : List Form)
  | conditional (condition thenBranch elseBranch : Form)
  | binding (x : String) (value next : Form)
  | effect (head next : Form)
  | rows (operand : Form)

namespace Form

/-- Shown in parentheses where it is an operand. -/
def wrapped : Form → Bool
  | binary .. | conditional .. => true
  | _ => false

/-- Ends where its text does, whatever follows. -/
def tight : Form → Bool
  | string _ | boolean _ | name _ | access .. | invoke .. | rows _ => true
  | _ => false

def closed (f : Form) : Bool := f.tight || f.wrapped

/-- Takes a semicolon after it for its own. -/
def trailing : Form → Bool
  | binary _ _ rhs => !rhs.closed
  | f => !f.tight

def single : Form → Bool
  | binary .. | effect .. => false
  | _ => true

def annotated (cs : List Char) (declared : Option String) : List Char :=
  cs ++ declared.elim [] fun ty => ": ".toList ++ ty.toList

def parenthesized (f : Form) (cs : List Char) : List Char := if f.wrapped then '(' :: cs ++ [')'] else cs

mutual
def text : Form → List Char
  | string value => (Text.quoted value).toList
  | boolean value => (if value then "true" else "false").toList
  | name x => x.toList
  | binary op lhs rhs => lhs.parenthesized lhs.text ++ ' ' :: op.symbol.toList ++ ' ' :: rhs.parenthesized rhs.text
  | access source member => source.parenthesized source.text ++ '.' :: member.toList
  | function called params body =>
    (called.getD "").toList ++ '(' :: ", ".toList.intercalate (params.map fun p => annotated p.1.toList p.2) ++ ") => ".toList ++ body.text
  | invoke callee args => callee.parenthesized callee.text ++ '(' :: ", ".toList.intercalate (texts args) ++ [')']
  | conditional condition thenBranch elseBranch =>
    "if ".toList ++ (condition.text ++ (" then ".toList ++ (thenBranch.text ++ (" else ".toList ++ elseBranch.text))))
  | binding x value next => "let ".toList ++ (x.toList ++ (" = ".toList ++ (value.text ++ ("; ".toList ++ next.text))))
  | effect head next => head.text ++ "; ".toList ++ next.text
  | rows operand => operand.text ++ "[]".toList
def texts : List Form → List (List Char)
  | [] => []
  | f :: fs => f.text :: texts fs
end

@[simp] theorem text_name (x : String) : (name x).text = x.toList := by
  rw [text]

mutual
/-- Every part stands where its text can be told from what is around it; the flag says whether a semicolon may go on
with a sequence there. -/
def Legible : Form → Bool → Prop
  | string _, _ | boolean _, _ => True
  | name x, _ => PlainName x
  | binary _ lhs rhs, seq =>
    (lhs.closed ∧ lhs.Legible true) ∧ (rhs.closed || rhs.single) ∧ rhs.Legible (rhs.closed || seq)
  | access source member, _ => (source.closed ∧ source.Legible true) ∧ PlainName member
  | function called params body, seq =>
    (∀ x ∈ called, PlainName x) ∧ (∀ p ∈ params, PlainName p.1 ∧ ∀ t ∈ p.2, ∃ ty : Ty, ty.Plain ∧ t = ty.text) ∧
      body.Legible seq
  | invoke callee args, _ => (callee.closed ∧ callee.Legible true) ∧ AllLegible args
  | conditional condition thenBranch elseBranch, seq =>
    condition.Legible true ∧ thenBranch.Legible true ∧ elseBranch.Legible seq
  | binding x value next, seq => seq = true ∧ PlainName x ∧ value.Legible false ∧ next.Legible true
  | effect head next, seq => seq = true ∧ head.trailing = false ∧ head.Legible true ∧ next.Legible true
  | rows operand, _ => operand.tight ∧ operand.Legible true
def AllLegible : List Form → Prop
  | [] => True
  | f :: fs => f.Legible true ∧ AllLegible fs
end

theorem texts_eq_map (fs : List Form) : texts fs = fs.map text := by
  induction fs with
  | nil => rfl
  | cons f fs ih => rw [texts, ih, List.map_cons]

theorem allLegible {fs : List Form} (legible : AllLegible fs) : ∀ f ∈ fs, f.Legible true := by
  induction fs with
  | nil => nofun
  | cons f fs ih => exact List.forall_mem_cons.2 ⟨legible.1, ih legible.2⟩

end Form

instance (x : String) : Decidable (PlainName x) :=
  decidable_of_iff (x.toList.all nameChar = true ∧ x ≠ "" ∧ x ∉ ["if", "then", "else", "let", "true", "false"])
    ⟨fun h => ⟨⟨List.all_eq_true.1 h.1, h.2.1⟩, h.2.2⟩, fun h => ⟨List.all_eq_true.2 h.chars, h.some, h.other⟩⟩

namespace Reader

def past (mark : String) (cs : List Char) : Option (List Char) :=
  if mark.toList.isPrefixOf cs then some (cs.drop mark.length) else none

def word (cs : List Char) : Option (String × List Char) :=
  if cs.takeWhile nameChar = [] then none else some (String.ofList (cs.takeWhile nameChar), cs.dropWhile nameChar)

open Classical in
noncomputable def literal (cs : List Char) : Option (String × List Char) :=
  if h : ∃ p : String × List Char, cs = (Text.quoted p.1).toList ++ p.2 then some h.choose else none

def operator : List Char → Option (Operator × List Char)
  | ' ' :: cs => (Operator.ofSymbol? (String.ofList (cs.takeWhile (· != ' ')))).map (·, (cs.dropWhile (· != ' ')).tail)
  | _ => none

def annotation : List Char → Option String × List Char
  | ':' :: ' ' :: cs => (some (String.ofList (Ty.cut 0 cs).1), (Ty.cut 0 cs).2)
  | cs => (none, cs)

def param : Form × Option String → Option (String × Option String)
  | (.name x, declared) => some (x, declared)
  | _ => none

mutual
/-- The number says how deep a reader may go. -/
noncomputable def expr : Nat → Bool → List Char → Option (Form × List Char)
  | 0, _, _ => none
  | n + 1, seq, cs => do
    let (head, cs) ← sum n seq cs
    match seq, cs with
    | true, ';' :: ' ' :: cs => do
      let (next, cs) ← expr n true cs
      return (.effect head next, cs)
    | _, cs => return (head, cs)
noncomputable def sum : Nat → Bool → List Char → Option (Form × List Char)
  | 0, _, _ => none
  | n + 1, seq, cs => do
    let (lhs, cs) ← operand n seq cs
    match operator cs with
    | some (op, cs) => do
      let (rhs, cs) ← operand n seq cs
      return (.binary op lhs rhs, cs)
    | none => return (lhs, cs)
noncomputable def operand : Nat → Bool → List Char → Option (Form × List Char)
  | 0, _, _ => none
  | n + 1, seq, '"' :: cs => do
    let (value, cs) ← literal ('"' :: cs)
    tail n seq (.string value) cs
  | n + 1, seq, '(' :: cs => do
    let (listed, cs) ← items n cs
    match past " => " cs with
    | some cs => do
      let (body, cs) ← expr n seq cs
      return (.function none (← listed.mapM param) body, cs)
    | none => match listed with
      | [(inner, none)] => tail n seq inner cs
      | _ => none
  | n + 1, seq, cs => do
    let (x, cs) ← word cs
    if x = "if" then do
      let (condition, cs) ← expr n true cs.tail
      let cs ← past " then " cs
      let (thenBranch, cs) ← expr n true cs
      let cs ← past " else " cs
      let (elseBranch, cs) ← expr n seq cs
      return (.conditional condition thenBranch elseBranch, cs)
    else if x = "let" then do
      let (x, cs) ← word cs.tail
      let cs ← past " = " cs
      let (value, cs) ← expr n false cs
      let cs ← past "; " cs
      let (next, cs) ← expr n true cs
      return (.binding x value next, cs)
    else if x = "true" then tail n seq (.boolean true) cs
    else if x = "false" then tail n seq (.boolean false) cs
    else tail n seq (.name x) cs
noncomputable def tail : Nat → Bool → Form → List Char → Option (Form × List Char)
  | 0, _, _, _ => none
  | n + 1, seq, read, '.' :: cs => do
    let (member, cs) ← word cs
    tail n seq (.access read member) cs
  | n + 1, seq, read, '[' :: ']' :: cs => tail n seq (.rows read) cs
  | n + 1, seq, read, '(' :: cs => do
    let (listed, cs) ← items n cs
    match past " => " cs with
    | some cs => do
      let (called, _) ← param (read, none)
      let (body, cs) ← expr n seq cs
      return (.function (some called) (← listed.mapM param) body, cs)
    | none => tail n seq (.invoke read (listed.map Prod.fst)) cs
  | _ + 1, _, read, cs => return (read, cs)
noncomputable def items : Nat → List Char → Option (List (Form × Option String) × List Char)
  | 0, _ => none
  | _ + 1, ')' :: cs => return ([], cs)
  | n + 1, cs => do
    let (first, cs) ← expr n true cs
    match annotation cs with
    | (declared, ')' :: cs) => return ([(first, declared)], cs)
    | (declared, ',' :: ' ' :: cs) => do
      let (others, cs) ← items n cs
      return ((first, declared) :: others, cs)
    | _ => none
end

theorem past_append (mark : String) (cs : List Char) : past mark (mark.toList ++ cs) = some cs := by
  rw [past, if_pos (List.isPrefixOf_iff_prefix.2 (List.prefix_append _ _)), ← String.length_toList, List.drop_left]

theorem word_append {x : String} (plain : OneWord x) {cs : List Char} (stop : ∀ c ∈ cs.head?, nameChar c = false) :
    word (x.toList ++ cs) = some (x, cs) := by
  obtain ⟨front, rest⟩ := Prod.mk.inj (Text.span_append _ plain.chars stop)
  have some : x.toList ≠ [] := by simpa using plain.some
  simp [word, front, rest, some]

theorem literal_append (s : String) (cs : List Char) : literal ((Text.quoted s).toList ++ cs) = some (s, cs) := by
  have found : ∃ p : String × List Char, (Text.quoted s).toList ++ cs = (Text.quoted p.1).toList ++ p.2 := ⟨(s, cs), rfl⟩
  rw [literal, dif_pos found]
  obtain ⟨value, rest⟩ := Text.quoted_split found.choose_spec
  exact congrArg some (Prod.ext value.symm rest.symm)

theorem operator_append (op : Operator) (cs : List Char) : operator (' ' :: (op.symbol.toList ++ ' ' :: cs)) = some (op, cs) := by
  have blank : ∀ c ∈ op.symbol.toList, (c != ' ') = true := by cases op <;> simp [Operator.symbol]
  obtain ⟨front, rest⟩ := Prod.mk.inj (Text.span_append (' ' :: cs) blank (by simp))
  simp [operator, front, rest]

/-- Where a form ends: a bracket or a mark of what holds it, and with no sequence open also a semicolon. -/
inductive Stop : Bool → List Char → Prop
  | done {seq : Bool} : Stop seq []
  | mark {seq : Bool} {c : Char} {cs : List Char} (known : c ∈ [')', ',', ':']) : Stop seq (c :: cs)
  | branch {seq : Bool} {cs : List Char} : Stop seq (" then ".toList ++ cs)
  | otherwise {seq : Bool} {cs : List Char} : Stop seq (" else ".toList ++ cs)
  | next {cs : List Char} : Stop false ("; ".toList ++ cs)

/-- What may follow an operand. -/
structure Free (cs : List Char) : Prop where
  mark : ∀ c ∈ cs.head?, nameChar c = false
  arrow : past " => " cs = none

namespace Stop

variable {seq : Bool} {cs : List Char}

theorem weaken {b : Bool} (stop : Stop seq cs) : Stop (seq && b) cs := by
  cases stop with
  | done => exact .done
  | mark known => exact .mark known
  | branch => exact .branch
  | otherwise => exact .otherwise
  | next => exact .next

theorem free (stop : Stop seq cs) : Free cs := by
  cases stop with
  | done => exact ⟨by simp, rfl⟩
  | mark known =>
    simp only [List.mem_cons, List.not_mem_nil, or_false] at known
    obtain rfl | rfl | rfl := known <;> exact ⟨by simp [nameChar], by simp [past]⟩
  | branch | otherwise | next => exact ⟨by simp [nameChar], by simp [past]⟩

theorem operator (stop : Stop seq cs) : operator cs = none := by
  cases stop with
  | done => rfl
  | mark known =>
    simp only [List.mem_cons, List.not_mem_nil, or_false] at known
    obtain rfl | rfl | rfl := known <;> rfl
  | branch | otherwise => simp [Reader.operator]; decide
  | next => rfl

end Stop

variable {n : Nat} {seq : Bool} {f g : Form} {cs rest more : List Char}

section

attribute [local simp] expr sum operand tail items

theorem tail_done (ends : ∀ c ∈ cs.head?, c ∉ ['.', '[', '(']) : tail (n + 1) seq f cs = some (f, cs) := by
  rw [tail]
  · rfl
  all_goals rintro _ rfl; simp at ends

theorem Stop.ends (stop : Stop seq cs) : ∀ c ∈ cs.head?, c ∉ ['.', '[', '('] := by
  intro c first
  cases stop with
  | mark known =>
    obtain rfl := Option.some.inj first
    simp only [List.mem_cons, List.not_mem_nil, or_false] at known
    obtain rfl | rfl | rfl := known <;> decide
  | done | branch | otherwise | next => cases first <;> decide

theorem sum_of_operand (read : operand n seq cs = some (f, rest)) (last : operator rest = none) :
    sum (n + 1) seq cs = some (f, rest) := by
  simp [read, last]

theorem sum_binary {op : Operator} {lhs rhs : Form} (left : operand n seq cs = some (lhs, ' ' :: (op.symbol.toList ++ ' ' :: more)))
    (right : operand n seq more = some (rhs, rest)) : sum (n + 1) seq cs = some (.binary op lhs rhs, rest) := by
  simp [left, operator_append, right]

theorem expr_of_sum (read : sum n seq cs = some (f, rest)) (stop : seq = true → ∀ more, rest ≠ ';' :: more) :
    expr (n + 1) seq cs = some (f, rest) := by
  rw [expr]
  simp only [read, Option.bind_eq_bind, Option.bind_some]
  split
  · exact (stop rfl _ rfl).elim
  · rfl

theorem expr_effect (first : sum n true cs = some (f, ';' :: ' ' :: more)) (next : expr n true more = some (g, rest)) :
    expr (n + 1) true cs = some (.effect f g, rest) := by
  simp [first, next]

end

theorem expr_close : expr n seq (')' :: cs) = none := by
  obtain _ | _ | _ | n := n
  · rw [expr]
  · rw [expr, sum]
    rfl
  · rw [expr, sum, operand]
    rfl
  · rw [expr, sum, operand] <;> simp [word, nameChar]

theorem items_last {declared : Option String} (read : expr n true cs = some (f, rest))
    (shown : annotation rest = (declared, ')' :: more)) : items (n + 1) cs = some ([(f, declared)], more) := by
  rw [items]
  · simp [read, shown]
  · rintro cs rfl
    cases expr_close.symm.trans read

theorem items_more {declared : Option String} {others : List (Form × Option String)} {last : List Char}
    (read : expr n true cs = some (f, rest)) (shown : annotation rest = (declared, ',' :: ' ' :: more))
    (next : items n more = some (others, last)) : items (n + 1) cs = some ((f, declared) :: others, last) := by
  rw [items]
  · simp [read, shown, next]
  · rintro cs rfl
    cases expr_close.symm.trans read

theorem annotation_append {declared : Option String} {c : Char} (ends : c = ')' ∨ c = ',')
    (typed : ∀ t ∈ declared, ∃ ty : Ty, ty.Plain ∧ t = ty.text) :
    annotation (Form.annotated [] declared ++ c :: cs) = (declared, c :: cs) := by
  cases declared with
  | none => obtain rfl | rfl := ends <;> rfl
  | some t =>
    obtain ⟨ty, plain, rfl⟩ := typed t rfl
    have uncut : Ty.cut 0 (ty.text.toList ++ c :: cs) = (ty.text.toList, c :: cs) := by
      rw [ty.uncut_text plain 0]
      obtain rfl | rfl := ends <;> simp [Ty.cut]
    simp [Form.annotated, annotation, uncut]

open Filter

theorem eventually_of_add {p : Nat → Prop} (k : Nat) (later : ∀ᶠ n in atTop, p (n + k)) : ∀ᶠ n in atTop, p n := by
  rw [← map_add_atTop_eq_nat k]
  exact eventually_map.2 later

/-- A form that is read to its end as one of a list. -/
def Item (n : Nat) (f : Form) : Prop := ∀ cs, Stop true cs → expr n true (f.text ++ cs) = some (f, cs)

theorem items_read (listed : List (Form × Option String))
    (each : ∀ p ∈ listed, (∀ᶠ n in atTop, Item n p.1) ∧ ∀ t ∈ p.2, ∃ ty : Ty, ty.Plain ∧ t = ty.text) :
    ∀ᶠ n in atTop, ∀ cs,
      items n (", ".toList.intercalate (listed.map fun p => Form.annotated p.1.text p.2) ++ ')' :: cs) = some (listed, cs) := by
  induction listed with
  | nil =>
    refine eventually_of_add 1 (.of_forall fun n cs => ?_)
    rw [List.map_nil, List.intercalate_nil, List.nil_append, items]
    rfl
  | cons p others ih =>
    obtain ⟨f, declared⟩ := p
    obtain ⟨⟨item, typed⟩, each⟩ := List.forall_mem_cons.1 each
    have stop (c : Char) (ends : c = ')' ∨ c = ',') (more : List Char) : Stop true (Form.annotated [] declared ++ c :: more) := by
      cases declared with
      | none => exact .mark (by obtain rfl | rfl := ends <;> decide)
      | some => exact .mark (by decide)
    refine eventually_of_add 1 ?_
    filter_upwards [item, ih each] with n item next cs
    have read (c : Char) (ends : c = ')' ∨ c = ',') (more : List Char) := item _ (stop c ends more)
    cases others with
    | nil =>
      have last := items_last (read ')' (.inl rfl) cs) (annotation_append (.inl rfl) typed)
      simpa [Form.annotated] using last
    | cons q others =>
      have last := items_more (read ',' (.inr rfl) _) (annotation_append (.inr rfl) typed) (next cs)
      simpa [Form.annotated, List.intercalate_cons_cons] using last

theorem opens {x : String} (plain : OneWord x) {c : Char} (strange : nameChar c = false) (rest : List Char) :
    x.toList ++ cs ≠ c :: rest := by
  intro same
  cases chars : x.toList with
  | nil => exact plain.some (by simpa using chars)
  | cons d ds =>
    rw [chars, List.cons_append, List.cons.injEq] at same
    have known := plain.chars d (by simp [chars])
    simp_all

theorem operand_word {x : String} (plain : PlainName x) (stop : ∀ c ∈ cs.head?, nameChar c = false) :
    operand (n + 1) seq (x.toList ++ cs) = tail n seq (.name x) cs := by
  have other := plain.other
  rw [operand, word_append plain.toOneWord stop]
  · simp_all
  · exact opens plain.toOneWord (by decide)
  · exact opens plain.toOneWord (by decide)

theorem operand_conditional {h : Form} {last : List Char} (condition : expr n true cs = some (f, " then ".toList ++ more))
    (thenBranch : expr n true more = some (g, " else ".toList ++ last)) (elseBranch : expr n seq last = some (h, rest)) :
    operand (n + 1) seq ("if ".toList ++ cs) = some (.conditional f g h, rest) := by
  have opening : word ("if".toList ++ ' ' :: cs) = some ("if", ' ' :: cs) := word_append ⟨by simp [nameChar], by decide⟩ (by simp [nameChar])
  rw [show "if ".toList ++ cs = "if".toList ++ ' ' :: cs from rfl, operand]
  · simp only [opening, condition, thenBranch, elseBranch, past_append, Option.bind_eq_bind, Option.bind_some, ↓reduceIte,
      List.tail_cons]
    rfl
  all_goals simp

theorem operand_binding {x : String} {last : List Char} (plain : PlainName x)
    (value : expr n false cs = some (f, "; ".toList ++ last)) (next : expr n true last = some (g, rest)) :
    operand (n + 1) true ("let ".toList ++ (x.toList ++ (" = ".toList ++ cs))) = some (.binding x f g, rest) := by
  have opening : word ("let".toList ++ ' ' :: (x.toList ++ (" = ".toList ++ cs))) = some ("let", ' ' :: (x.toList ++ (" = ".toList ++ cs))) :=
    word_append ⟨by simp [nameChar], by decide⟩ (by simp [nameChar])
  have named : word (x.toList ++ (" = ".toList ++ cs)) = some (x, " = ".toList ++ cs) :=
    word_append plain.toOneWord (by simp [nameChar])
  rw [show "let ".toList ++ (x.toList ++ (" = ".toList ++ cs)) = "let".toList ++ ' ' :: (x.toList ++ (" = ".toList ++ cs)) from rfl, operand]
  · simp only [opening, named, value, next, past_append, Option.bind_eq_bind, Option.bind_some, ↓reduceIte, List.tail_cons]
    rfl
  all_goals simp

theorem Stop.ne_next (stop : Stop seq cs) (more : List Char) (sequence : seq = true) : cs ≠ ';' :: more := by
  rintro rfl
  cases stop with
  | mark known => simp at known
  | next => cases sequence

/-- A form is read back from its text, by each reader that may meet it and goes deep enough. -/
structure Read (f : Form) : Prop where
  closed : f.closed = true → f.Legible true →
    ∃ k, ∀ᶠ n in atTop, ∀ seq cs, Free cs → operand (n + k) seq (f.parenthesized f.text ++ cs) = tail n seq f cs
  single : ∀ᶠ n in atTop, ∀ seq cs, f.single = true → f.Legible seq → Stop (seq && f.trailing) cs →
    operand n seq (f.text ++ cs) = some (f, cs)
  part : ∀ᶠ n in atTop, ∀ seq cs, (f.closed || f.single) = true → f.Legible seq → Stop (seq && f.trailing) cs →
    sum n seq (f.text ++ cs) = some (f, cs)
  whole : ∀ᶠ n in atTop, ∀ seq cs, f.Legible seq → Stop seq cs → expr n seq (f.text ++ cs) = some (f, cs)

namespace Read

/-- Parentheses bring back what stands inside them. -/
theorem parenthesized (whole : ∀ᶠ n in atTop, Item n f) :
    ∀ᶠ n in atTop, ∀ seq cs, Free cs → operand (n + 1) seq ('(' :: (f.text ++ ')' :: cs)) = tail n seq f cs := by
  filter_upwards [items_read [(f, none)] (List.forall_mem_singleton.2 ⟨whole, by simp⟩)] with n inner seq cs free
  have inner := inner cs
  simp only [List.map_cons, List.map_nil, List.intercalate_singleton, Form.annotated, Option.elim_none, List.append_nil] at inner
  rw [operand]
  simp [inner, free.arrow]

theorem of_part (part : ∀ᶠ n in atTop, ∀ seq cs, f.Legible seq → Stop (seq && f.trailing) cs → sum n seq (f.text ++ cs) = some (f, cs))
    (tight : f.tight = true → f.Legible true →
      ∃ k, ∀ᶠ n in atTop, ∀ seq cs, Free cs → operand (n + k) seq (f.text ++ cs) = tail n seq f cs)
    (single : ∀ᶠ n in atTop, ∀ seq cs, f.single = true → f.Legible seq → Stop (seq && f.trailing) cs →
      operand n seq (f.text ++ cs) = some (f, cs)) : Read f := by
  have whole : ∀ᶠ n in atTop, ∀ seq cs, f.Legible seq → Stop seq cs → expr n seq (f.text ++ cs) = some (f, cs) := by
    refine eventually_of_add 1 ?_
    filter_upwards [part] with n part seq cs legible stop
    exact expr_of_sum (part seq cs legible stop.weaken) fun sequence more => stop.ne_next more sequence
  refine ⟨fun closed legible => ?_, single, part.mono fun n part seq cs _ => part seq cs, whole⟩
  cases wrapped : f.wrapped with
  | true =>
    refine ⟨1, ?_⟩
    filter_upwards [parenthesized (whole.mono fun n whole cs => whole true cs legible)] with n read seq cs free
    simpa [Form.parenthesized, wrapped] using read seq cs free
  | false =>
    rw [Form.closed, wrapped, Bool.or_false] at closed
    simpa [Form.parenthesized, wrapped] using tight closed legible

theorem of_single (single : ∀ᶠ n in atTop, ∀ seq cs, f.Legible seq → Stop (seq && f.trailing) cs →
      operand n seq (f.text ++ cs) = some (f, cs))
    (tight : f.tight = true → f.Legible true →
      ∃ k, ∀ᶠ n in atTop, ∀ seq cs, Free cs → operand (n + k) seq (f.text ++ cs) = tail n seq f cs) : Read f := by
  refine .of_part (eventually_of_add 1 ?_) tight (single.mono fun n single seq cs _ => single seq cs)
  filter_upwards [single] with n single seq cs legible stop
  exact sum_of_operand (single seq cs legible stop) stop.operator

theorem of_tight (tight : f.tight = true) (read : f.Legible true →
      ∃ k, ∀ᶠ n in atTop, ∀ seq cs, Free cs → operand (n + k) seq (f.text ++ cs) = tail n seq f cs) : Read f := by
  have level (seq : Bool) (legible : f.Legible seq) : f.Legible true := by cases f <;> first | exact legible | cases tight
  refine .of_single ?_ fun _ => read
  by_cases legible : f.Legible true
  · obtain ⟨k, read⟩ := read legible
    refine eventually_of_add (1 + k) ?_
    filter_upwards [(tendsto_add_atTop_nat 1).eventually read] with n read seq cs _ stop
    rw [← Nat.add_assoc]
    exact (read seq cs stop.free).trans (tail_done stop.ends)
  · exact .of_forall fun n seq cs held => absurd (level seq held) legible

theorem of_open (loose : f.tight = false) (trailing : f.trailing = true)
    (read : ∀ᶠ n in atTop, ∀ seq cs, f.Legible seq → Stop seq cs → operand n seq (f.text ++ cs) = some (f, cs)) : Read f := by
  refine .of_single ?_ fun tight => ?_
  · filter_upwards [read] with n read seq cs legible stop
    exact read seq cs legible (by simpa [trailing] using stop)
  · cases loose.symm.trans tight

/-- The reader of an operand is left with what follows it. -/
theorem turn (read : Read f) (closed : f.closed = true) (legible : f.Legible true) :
    ∃ k, ∀ᶠ n in atTop, ∀ seq cs, Free cs → operand (n + k) seq (f.parenthesized f.text ++ cs) = tail (n + 1) seq f cs := by
  obtain ⟨k, source⟩ := read.closed closed legible
  refine ⟨1 + k, ?_⟩
  filter_upwards [(tendsto_add_atTop_nat 1).eventually source] with n source seq cs free
  rw [← Nat.add_assoc]
  exact source seq cs free

theorem item (read : Read f) (legible : f.Legible true) : ∀ᶠ n in atTop, Item n f :=
  read.whole.mono fun _ whole cs => whole true cs legible

theorem shut (read : Read f) : ∀ᶠ n in atTop, ∀ seq cs, f.closed = true → f.Legible true → Free cs →
    (∀ c ∈ cs.head?, c ∉ ['.', '[', '(']) → operand n seq (f.parenthesized f.text ++ cs) = some (f, cs) := by
  by_cases held : f.closed = true ∧ f.Legible true
  · obtain ⟨k, source⟩ := read.turn held.1 held.2
    refine eventually_of_add k ?_
    filter_upwards [source] with n source seq cs _ _ free ends
    exact (source seq cs free).trans (tail_done ends)
  · exact .of_forall fun n seq cs closed legible => absurd ⟨closed, legible⟩ held

theorem string (value : String) : Read (.string value) := of_tight rfl fun _ => ⟨1, .of_forall fun n seq cs _ => by
  have read := literal_append value cs
  obtain ⟨rest, opens⟩ : ∃ rest, (Text.quoted value).toList = '"' :: rest := ⟨_, by rw [Text.quoted, String.toList_ofList]; rfl⟩
  rw [Form.text]
  rw [opens] at read ⊢
  rw [List.cons_append, operand, ← List.cons_append, read]
  rfl⟩

theorem boolean (value : Bool) : Read (.boolean value) := of_tight rfl fun _ => ⟨1, .of_forall fun n seq cs free => by
  have plain : OneWord (if value then "true" else "false") := by cases value <;> exact ⟨by simp [nameChar], by decide⟩
  rw [Form.text, operand, word_append plain free.mark]
  · cases value <;> simp
  · exact opens plain (by decide)
  · exact opens plain (by decide)⟩

theorem name (x : String) : Read (.name x) := of_tight rfl fun plain => ⟨1, .of_forall fun n seq cs free => by
  rw [Form.text_name]
  exact operand_word plain free.mark⟩

theorem access (read : Read f) (member : String) : Read (.access f member) := of_tight rfl fun legible => by
  obtain ⟨⟨closed, inner⟩, plain⟩ := legible
  obtain ⟨k, source⟩ := read.turn closed inner
  refine ⟨k, ?_⟩
  filter_upwards [source] with n source seq cs free
  have source := source seq ('.' :: (member.toList ++ cs)) ⟨by simp [nameChar], by simp [past]⟩
  simp only [Form.text, List.append_assoc, List.cons_append, source]
  rw [tail, word_append plain.toOneWord free.mark]
  rfl

theorem rows (read : Read f) : Read (.rows f) := of_tight rfl fun legible => by
  obtain ⟨tight, inner⟩ := legible
  obtain ⟨k, source⟩ := read.turn (by simp [Form.closed, tight]) inner
  have bare : f.parenthesized f.text = f.text := by cases f <;> first | rfl | cases tight
  rw [bare] at source
  refine ⟨k, ?_⟩
  filter_upwards [source] with n source seq cs free
  have source := source seq ('[' :: ']' :: cs) ⟨by simp [nameChar], by simp [past]⟩
  simp only [Form.text, List.append_assoc]
  exact source.trans (by rw [tail])

theorem invoke {args : List Form} (read : Read f) (reads : ∀ arg ∈ args, Read arg) : Read (.invoke f args) :=
  of_tight rfl fun legible => by
    obtain ⟨⟨closed, inner⟩, each⟩ := legible
    obtain ⟨k, source⟩ := read.turn closed inner
    have items := items_read (args.map (·, none)) (List.forall_mem_map.2 fun arg within =>
      ⟨(reads arg within).item (Form.allLegible each arg within), by simp⟩)
    refine ⟨k, ?_⟩
    filter_upwards [source, items] with n source items seq cs free
    have source (rest : List Char) := source seq ('(' :: rest) ⟨by simp [nameChar], by simp [past]⟩
    have listed := items cs
    simp only [List.map_map, Function.comp_def, Form.annotated, Option.elim_none, List.append_nil] at listed
    simp only [Form.text, Form.texts_eq_map, List.append_assoc, List.cons_append, List.nil_append, source]
    rw [tail, listed]
    simp [free.arrow, Function.comp_def]

theorem binary {op : Operator} (left : Read f) (right : Read g) : Read (.binary op f g) := by
  refine of_part (eventually_of_add 1 ?_) nofun (.of_forall fun _ _ _ => nofun)
  filter_upwards [left.shut, right.shut, right.single] with n left right loose seq cs legible stop
  obtain ⟨⟨closed, inner⟩, kept, last⟩ := legible
  have first := left seq (' ' :: (op.symbol.toList ++ ' ' :: (g.parenthesized g.text ++ cs))) closed inner
    ⟨by simp [nameChar], by cases op <;> simp [past, Operator.symbol]⟩ (by simp)
  have second : operand n seq (g.parenthesized g.text ++ cs) = some (g, cs) := by
    cases shut : g.closed with
    | true => exact right seq cs shut (by simpa [shut] using last) stop.free stop.ends
    | false =>
      have bare : g.parenthesized g.text = g.text := by cases g <;> first | rfl | cases shut
      rw [shut, Bool.false_or] at kept last
      rw [Form.trailing, shut] at stop
      rw [bare]
      exact loose seq cs kept last (by simpa using stop.weaken)
  simpa [Form.text] using sum_binary first second

theorem conditional {h : Form} (condition : Read f) (thenBranch : Read g) (elseBranch : Read h) :
    Read (.conditional f g h) := by
  refine of_open rfl rfl (eventually_of_add 1 ?_)
  filter_upwards [condition.whole, thenBranch.whole, elseBranch.whole] with n condition thenBranch elseBranch seq cs legible stop
  obtain ⟨first, second, third⟩ := legible
  have read := operand_conditional (condition true _ first .branch) (thenBranch true _ second .otherwise)
    (elseBranch seq cs third stop)
  simpa only [Form.text, List.append_assoc] using read

theorem binding (value : Read f) (next : Read g) (x : String) : Read (.binding x f g) := by
  refine of_open rfl rfl (eventually_of_add 1 ?_)
  filter_upwards [value.whole, next.whole] with n value next seq cs legible stop
  obtain ⟨rfl, plain, first, second⟩ := legible
  have read := operand_binding plain (value false _ first .next) (next true cs second stop)
  simpa only [Form.text, List.append_assoc] using read

theorem mapM_param (params : List (String × Option String)) : (params.map fun p => (Form.name p.1, p.2)).mapM param = some params := by
  induction params with
  | nil => rfl
  | cons p params ih => simp [param, ih]

theorem function {params : List (String × Option String)} (body : Read f) (called : Option String) :
    Read (.function called params f) := by
  refine of_open rfl rfl ?_
  by_cases each : ∀ p ∈ params, PlainName p.1 ∧ ∀ t ∈ p.2, ∃ ty : Ty, ty.Plain ∧ t = ty.text
  swap
  · exact .of_forall fun n seq cs legible => absurd legible.2.1 each
  have items := items_read (params.map fun p => (Form.name p.1, p.2)) (by
    intro _ listed
    obtain ⟨p, within, rfl⟩ := List.mem_map.1 listed
    exact ⟨(name p.1).item (each p within).1, (each p within).2⟩)
  simp only [List.map_map, Function.comp_def, Form.text_name] at items
  have shown (cs : List Char) : ") => ".toList ++ (f.text ++ cs) = ')' :: (" => ".toList ++ (f.text ++ cs)) := rfl
  cases called with
  | none =>
    refine eventually_of_add 1 ?_
    filter_upwards [items, body.whole] with n items body seq cs legible stop
    have listed := items (" => ".toList ++ (f.text ++ cs))
    have read := body seq cs legible.2.2 stop
    simp only [Form.text, List.append_assoc, List.cons_append, shown]
    rw [Option.getD_none, String.toList_empty, List.nil_append, operand]
    simp only [listed, past_append, read, mapM_param, Option.bind_eq_bind, Option.bind_some]
    rfl
  | some x =>
    refine eventually_of_add 2 ?_
    filter_upwards [items, body.whole] with n items body seq cs legible stop
    have listed := items (" => ".toList ++ (f.text ++ cs))
    have read := body seq cs legible.2.2 stop
    simp only [Form.text, List.append_assoc, List.cons_append, shown]
    rw [Option.getD_some, operand_word (legible.1 x rfl) (by simp [nameChar]), tail]
    simp only [listed, past_append, read, mapM_param, param, Option.bind_eq_bind, Option.bind_some]
    rfl

theorem effect (head : Read f) (next : Read g) : Read (.effect f g) := by
  refine ⟨nofun, .of_forall fun _ _ _ => nofun, .of_forall fun _ _ _ => nofun, eventually_of_add 1 ?_⟩
  filter_upwards [head.part, next.whole] with n part next seq cs legible stop
  obtain ⟨rfl, ended, first, second⟩ := legible
  have kept : (f.closed || f.single) = true := by cases f <;> first | rfl | cases ended
  have part := part true (';' :: ' ' :: (g.text ++ cs)) kept first (by rw [ended]; exact .next)
  simpa [Form.text] using expr_effect part (next true cs second stop)

end Read

mutual
theorem read : (f : Form) → Read f
  | .string value => .string value
  | .boolean value => .boolean value
  | .name x => .name x
  | .binary _ lhs rhs => .binary (read lhs) (read rhs)
  | .access source member => .access (read source) member
  | .function called _ body => .function (read body) called
  | .invoke callee args => .invoke (read callee) (reads args)
  | .conditional condition thenBranch elseBranch => .conditional (read condition) (read thenBranch) (read elseBranch)
  | .binding x value next => .binding (read value) (read next) x
  | .effect head next => .effect (read head) (read next)
  | .rows operand => .rows (read operand)
theorem reads : (fs : List Form) → ∀ f ∈ fs, Read f
  | [] => nofun
  | f :: fs => List.forall_mem_cons.2 ⟨read f, reads fs⟩
end

end Reader

theorem Form.text_inj {f g : Form} (legible : f.Legible true) (legible' : g.Legible true) (same : f.text = g.text) : f = g := by
  obtain ⟨n, whole, whole'⟩ := ((Reader.read f).whole.and (Reader.read g).whole).exists
  have back := whole true [] legible .done
  rw [same, whole' true [] legible' .done] at back
  exact (Prod.mk.inj (Option.some.inj back)).1.symm

end DerivedTables
