import Fleet.Peg.Grammar
/-!
Rule tables to which it is all the same how lines end (`Grammar.LineNeutral`). One rule matches a
line end of any kind; nothing else consumes a character of one, and no action looks at text which
may hold one.
-/

namespace Fleet.Peg

variable {ι ν ε : Type}

/-- An item to those who do not look at text, or who do. -/
def Item.seen (text : Bool) : Item ν → Item ν
  | .text s => .text (if text then s else "")
  | .node n => .node n

/-- Captures to those who look at no text but that under some names. -/
def Captures.seen (names : List String) (c : Captures ν) : Captures ν :=
  ⟨c.bindings.map fun b => (b.1, b.2.seen (decide (b.1 ∈ names)))⟩

/-- None of the characters ends a line. -/
def unbroken (word : List Char) : Bool := word.all fun c => c != '\n' && c != '\r'

/-- One character that neither ends a line nor begins a certain mark. -/
def Expr.isGuarded [BEq ι] (newline : ι) : List (Expr ι) → Bool
  | [.not (.choice [.literal mark, .rule id]), .any] => unbroken mark.toList && id == newline
  | _ => false

/-- The expression before the end of a text. -/
def Expr.isAny : Expr ι → Bool
  | .any => true
  | _ => false

mutual

/-- The expression consumes a line end as a whole, by the rule for it, or not at all. If `text`
says so, the text it yields has none. Text captured under one of the names has none either. -/
def Grammar.neutral [BEq ι] (g : Grammar ι ν ε) (newline : ι) (names : List String) (text : Bool) :
    Expr ι → Bool
  | .literal word => unbroken word.toList
  | .oneOf cls => !cls.contains '\n' && !cls.contains '\r'
  | .any => false
  | .seq items => Expr.isGuarded newline items || neutralAll g newline names text items
  | .choice items => !items.isEmpty && neutralAll g newline names text items
  | .oneOrMore e | .zeroOrMore e | .optional e => neutral g newline names text e
  | .not e => e.isAny || neutral g newline names false e
  | .commit => true
  | .ignore e => neutral g newline names false e
  | .capture name e => neutral g newline names (text || decide (name ∈ names)) e
  | .rule id => !text || (g.rule id).action.isSome

def Grammar.neutralAll [BEq ι] (g : Grammar ι ν ε) (newline : ι) (names : List String)
    (text : Bool) : List (Expr ι) → Bool
  | [] => true
  | e :: items => neutral g newline names text e && neutralAll g newline names text items

end

/-- A line end of any kind. -/
def Expr.lineEnd : Expr ι := .choice [.literal "\r\n", .literal "\n", .literal "\r"]

/-- Of line ends the rule table has the rule `newline`, and its actions look at text under some
names only. -/
structure Grammar.LineNeutral [BEq ι] (g : Grammar ι ν ε) (newline : ι) (names : List String) :
    Prop where
  lineEnd : ∃ name, g.rule newline = .transparent name .lineEnd
  body : ∀ id, id ≠ newline → g.neutral newline names false (g.rule id).body = true
  action : ∀ id action, (g.rule id).action = some action → ∀ c, action (c.seen names) = action c

/-- Nodes are seen in any case. -/
theorem Item.filterMap_node?_seen (text : Bool) (items : List (Item ν)) :
    (items.map (Item.seen text)).filterMap Item.node? = items.filterMap Item.node? := by
  have hnode : Item.node? ∘ Item.seen text = Item.node? (ν := ν) := by
    funext i
    cases i <;> rfl
  rw [List.filterMap_map, hnode]

theorem Item.seen_true (i : Item ν) : i.seen true = i := by cases i <;> rfl

theorem Item.seen_seen (text : Bool) (i : Item ν) : (i.seen text).seen false = i.seen false := by
  cases i <;> rfl

/-- Items that look the same have the same nodes. -/
theorem Item.nodes_of_seen {text : Bool} {items items' : List (Item ν)}
    (h : items.map (Item.seen text) = items'.map (Item.seen text)) :
    items.filterMap Item.node? = items'.filterMap Item.node? := by
  rw [← filterMap_node?_seen text items, h, filterMap_node?_seen]

namespace Captures

theorem items_seen (names : List String) (c : Captures ν) (name : String) :
    (c.seen names).items name = (c.items name).map (Item.seen (decide (name ∈ names))) := by
  obtain ⟨bs⟩ := c
  induction bs with
  | nil => rfl
  | cons b bs ih =>
    simp only [seen, items] at ih
    by_cases h : b.1 = name <;> simp [seen, items, h, ih]

@[simp] theorem nodes_seen (names : List String) (c : Captures ν) (name : String) :
    (c.seen names).nodes name = c.nodes name := by
  rw [nodes, items_seen, Item.filterMap_node?_seen, nodes]

@[simp] theorem node?_seen (names : List String) (c : Captures ν) (name : String) :
    (c.seen names).node? name = c.node? name := by
  simp [node?]

theorem text_seen {names : List String} {name : String} (h : name ∈ names) (c : Captures ν) :
    (c.seen names).text name = c.text name := by
  have hseen : Item.seen (ν := ν) true = id := funext Item.seen_true
  rw [text, items_seen, decide_eq_true h, hseen, List.map_id, text]

end Captures

theorem Expr.of_isGuarded [BEq ι] [LawfulBEq ι] {newline : ι} {items : List (Expr ι)}
    (h : isGuarded newline items = true) :
    ∃ mark, items = [.not (.choice [.literal mark, .rule newline]), .any] ∧
      unbroken mark.toList = true := by
  unfold isGuarded at h
  split at h
  · next mark id =>
    rw [Bool.and_eq_true, beq_iff_eq] at h
    obtain ⟨hmark, rfl⟩ := h
    exact ⟨mark, rfl, hmark⟩
  · cases h

theorem Expr.of_isAny {e : Expr ι} (h : e.isAny = true) : e = .any := by
  unfold isAny at h
  split at h
  · rfl
  · cases h

theorem unbroken_iff {word : List Char} :
    unbroken word = true ↔ ∀ c ∈ word, c ≠ '\n' ∧ c ≠ '\r' := by
  simp [unbroken]

end Fleet.Peg
