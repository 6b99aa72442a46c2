/-!
What an action rule has captured so far. Bindings stay in the order in which they were made and a
name may be bound many times, so a capture under a repetition gathers every match of it.
-/

namespace Fleet.Peg

/-- What an expression yields: text it consumed, or a node that an action made. -/
inductive Item (ν : Type) where
  | text (s : String)
  | node (n : ν)
deriving DecidableEq, Repr

namespace Item
variable {ν : Type}

def text? : Item ν → Option String
  | .text s => some s
  | .node _ => none

def node? : Item ν → Option ν
  | .text _ => none
  | .node n => some n

@[simp] theorem text?_text (s : String) : (text s : Item ν).text? = some s := rfl

@[simp] theorem text?_node (n : ν) : (node n).text? = none := rfl

@[simp] theorem node?_text (s : String) : (text s : Item ν).node? = none := rfl

@[simp] theorem node?_node (n : ν) : (node n).node? = some n := rfl

end Item

structure Captures (ν : Type) where
  bindings : List (String × Item ν)
deriving DecidableEq, Repr

namespace Captures
variable {ν : Type}

def empty : Captures ν := ⟨[]⟩

def bind (c : Captures ν) (name : String) (item : Item ν) : Captures ν :=
  ⟨c.bindings ++ [(name, item)]⟩

def bindAll (c : Captures ν) (name : String) (items : List (Item ν)) : Captures ν :=
  ⟨c.bindings ++ items.map (name, ·)⟩

/-- How much is bound: `reset` goes back to a mark. -/
def mark (c : Captures ν) : Nat := c.bindings.length

def reset (c : Captures ν) (mark : Nat) : Captures ν := ⟨c.bindings.take mark⟩

def items (c : Captures ν) (name : String) : List (Item ν) :=
  (c.bindings.filter (·.1 == name)).map (·.2)

/-- All text under `name`, joined. -/
def text (c : Captures ν) (name : String) : String :=
  String.join ((c.items name).filterMap Item.text?)

def nodes (c : Captures ν) (name : String) : List ν := (c.items name).filterMap Item.node?

def node? (c : Captures ν) (name : String) : Option ν := (c.nodes name).head?

@[simp] theorem items_bindAll_self (c : Captures ν) (name : String) (xs : List (Item ν)) :
    (c.bindAll name xs).items name = c.items name ++ xs := by
  simp [bindAll, items, List.filter_map, Function.comp_def]

theorem items_bindAll_of_ne (c : Captures ν) {name other : String} (xs : List (Item ν))
    (h : name ≠ other) : (c.bindAll name xs).items other = c.items other := by
  simp [bindAll, items, List.filter_map, Function.comp_def, h]

theorem items_append (bs bs' : List (String × Item ν)) (name : String) :
    (⟨bs ++ bs'⟩ : Captures ν).items name =
      (⟨bs⟩ : Captures ν).items name ++ (⟨bs'⟩ : Captures ν).items name := by
  simp [items]

/-- Under the name of a capture is what it captured. -/
theorem items_named (xs : List (Item ν)) (name other : String) :
    (⟨xs.map (name, ·)⟩ : Captures ν).items other = if name = other then xs else [] := by
  split
  · next h =>
    subst h
    exact items_bindAll_self .empty name xs
  · next h => exact items_bindAll_of_ne .empty xs h

@[simp] theorem nodes_append (bs bs' : List (String × Item ν)) (name : String) :
    (⟨bs ++ bs'⟩ : Captures ν).nodes name =
      (⟨bs⟩ : Captures ν).nodes name ++ (⟨bs'⟩ : Captures ν).nodes name := by
  simp [nodes, items_append]

@[simp] theorem nodes_named (xs : List (Item ν)) (name other : String) :
    (⟨xs.map (name, ·)⟩ : Captures ν).nodes other =
      if name = other then xs.filterMap Item.node? else [] := by
  rw [nodes, items_named]
  split <;> rfl

@[simp] theorem nodes_nil (name : String) : (⟨[]⟩ : Captures ν).nodes name = [] := rfl

@[simp] theorem nodes_cons (name : String) (x : Item ν) (bs : List (String × Item ν))
    (other : String) :
    (⟨(name, x) :: bs⟩ : Captures ν).nodes other =
      (if name = other then x.node?.toList else []) ++ (⟨bs⟩ : Captures ν).nodes other := by
  have h := nodes_append [(name, x)] bs other
  have hx := nodes_named [x] name other
  simp only [List.map_cons, List.map_nil] at hx
  rw [List.singleton_append, hx] at h
  rw [h]
  cases x <;> rfl

@[simp] theorem text_append (bs bs' : List (String × Item ν)) (name : String) :
    (⟨bs ++ bs'⟩ : Captures ν).text name =
      (⟨bs⟩ : Captures ν).text name ++ (⟨bs'⟩ : Captures ν).text name := by
  simp [text, items_append]

@[simp] theorem text_named (xs : List (Item ν)) (name other : String) :
    (⟨xs.map (name, ·)⟩ : Captures ν).text other =
      if name = other then String.join (xs.filterMap Item.text?) else "" := by
  rw [text, items_named]
  split <;> rfl

@[simp] theorem text_nil (name : String) : (⟨[]⟩ : Captures ν).text name = "" := rfl

/-- Going back to the mark forgets what was bound since, and nothing else. -/
theorem reset_of_prefix {c d : Captures ν} (h : c.bindings <+: d.bindings) :
    d.reset c.mark = c := by
  obtain ⟨more, hm⟩ := h
  cases c; cases d
  subst hm
  simp [reset, mark]

end Captures

end Fleet.Peg
