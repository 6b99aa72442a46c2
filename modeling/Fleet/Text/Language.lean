import Mathlib.Data.List.Forall2
/-!
Sets of texts and how larger ones are put together from smaller ones.
-/

namespace Fleet.Text

/-- A set of texts. -/
abbrev Language := List Char → Prop

/-- What comes next, if anything does, is such a character. -/
def Ahead (p : Char → Prop) (cs : List Char) : Prop := ∀ c ∈ cs.head?, p c

namespace Ahead
variable {p q : Char → Prop} {c : Char} {cs : List Char}

@[simp] theorem nil : Ahead p [] := by simp [Ahead]

@[simp] theorem cons : Ahead p (c :: cs) ↔ p c := by simp [Ahead]

theorem imp (h : Ahead p cs) (hpq : ∀ c, p c → q c) : Ahead q cs := fun c hc => hpq c (h c hc)

theorem append {w : List Char} (hw : Ahead p w) (hcs : Ahead p cs) : Ahead p (w ++ cs) := by
  cases w with
  | nil => exact hcs
  | cons c w => simpa using hw

theorem exists_cons_of_not (h : ¬ Ahead (· ≠ c) cs) : ∃ more, cs = c :: more := by
  cases cs with
  | nil => exact absurd .nil h
  | cons d more => exact ⟨more, by simpa using h⟩

end Ahead

/-- A text begins with all there is of some characters. -/
theorem exists_run (p : Char → Prop) (cs : List Char) :
    ∃ w rest, cs = w ++ rest ∧ (∀ c ∈ w, p c) ∧ Ahead (¬ p ·) rest := by
  induction cs with
  | nil => exact ⟨[], [], rfl, by simp, .nil⟩
  | cons c cs ih =>
    by_cases hc : p c
    · obtain ⟨w, rest, rfl, hw, hr⟩ := ih
      exact ⟨c :: w, rest, rfl, by simpa [hc] using hw, hr⟩
    · exact ⟨[], c :: cs, rfl, by simp, by simpa using hc⟩

/-- There is one way alone to take all there is of some characters. -/
theorem run_unique {p : Char → Prop} {w w' rest rest' : List Char} (hw : ∀ c ∈ w, p c)
    (hw' : ∀ c ∈ w', p c) (hr : Ahead (¬ p ·) rest) (hr' : Ahead (¬ p ·) rest')
    (h : w ++ rest = w' ++ rest') : w = w' ∧ rest = rest' := by
  induction w generalizing w' with
  | nil =>
    cases w' with
    | nil => exact ⟨rfl, h⟩
    | cons c w' =>
      obtain rfl : rest = c :: (w' ++ rest') := h
      exact absurd (hw' c List.mem_cons_self) (Ahead.cons.1 hr)
  | cons c w ih =>
    cases w' with
    | nil =>
      obtain rfl : c :: (w ++ rest) = rest' := h
      exact absurd (hw c List.mem_cons_self) (Ahead.cons.1 hr')
    | cons d w' =>
      obtain ⟨rfl, htail⟩ := List.cons.inj h
      obtain ⟨rfl, hrest⟩ := ih (fun c hc => hw c (List.mem_cons_of_mem _ hc))
        (fun c hc => hw' c (List.mem_cons_of_mem _ hc)) htail
      exact ⟨rfl, hrest⟩

namespace Language

def word (w : String) : Language := fun t => t = w.toList

def nothing : Language := fun t => t = []

/-- A text of the one and then a text of the other. -/
def append (p q : Language) : Language := fun t => ∃ a b, t = a ++ b ∧ p a ∧ q b

/-- Texts of each of the languages, one after the other. -/
def concat : List Language → Language
  | [] => nothing
  | p :: ps => p.append (concat ps)

/-- Any number of texts of the language. -/
inductive Star (p : Language) : Language where
  | nil : Star p []
  | cons {a b : List Char} (ha : p a) (hb : Star p b) : Star p (a ++ b)

/-- One text of the language or more. -/
def plus (p : Language) : Language := p.append (Star p)

def either (p q : Language) : Language := fun t => p t ∨ q t

/-- Texts of each of the languages with a separator between every two of them. -/
def joined (separator : Language) : List Language → Language
  | [] => nothing
  | [p] => p
  | p :: q :: ps => p.append (separator.append (joined separator (q :: ps)))

@[simp] theorem concat_nil (t : List Char) : concat [] t ↔ t = [] := Iff.rfl

@[simp] theorem word_iff (w : String) (t : List Char) : word w t ↔ t = w.toList := Iff.rfl

theorem append_assoc (p q r : Language) : (p.append q).append r = p.append (q.append r) := by
  funext t
  refine propext ⟨?_, ?_⟩
  · intro h
    obtain ⟨_, c, rfl, ⟨a, b, rfl, ha, hb⟩, hc⟩ := h
    exact ⟨a, b ++ c, by simp, ha, b, c, rfl, hb, hc⟩
  · intro h
    obtain ⟨a, _, rfl, ha, b, c, rfl, hb, hc⟩ := h
    exact ⟨a ++ b, c, by simp, ⟨a, b, rfl, ha, hb⟩, hc⟩

@[simp] theorem append_nothing (p : Language) : p.append nothing = p := by
  funext t
  refine propext ⟨?_, fun h => ⟨t, [], by simp, h, rfl⟩⟩
  intro hp
  obtain ⟨a, _, rfl, ha, rfl⟩ := hp
  simpa using ha

@[simp] theorem nothing_append (p : Language) : nothing.append p = p := by
  funext t
  refine propext ⟨?_, fun h => ⟨[], t, rfl, rfl, h⟩⟩
  intro hp
  obtain ⟨_, b, rfl, rfl, hb⟩ := hp
  exact hb

theorem concat_append (ps qs : List Language) :
    concat (ps ++ qs) = (concat ps).append (concat qs) := by
  induction ps with
  | nil => exact (nothing_append _).symm
  | cons p ps ih => rw [List.cons_append, concat, ih, concat, append_assoc]

/-- After the first of the joined texts each of the others comes with the separator before it. -/
theorem joined_cons (separator p : Language) (ps : List Language) :
    joined separator (p :: ps) = p.append (concat (ps.map (append separator))) := by
  induction ps generalizing p with
  | nil => exact (append_nothing p).symm
  | cons q ps ih => rw [joined, ih, List.map_cons, concat, append_assoc]

theorem joined_append (separator : Language) {ps qs : List Language} (hp : ps ≠ [])
    (hq : qs ≠ []) :
    joined separator (ps ++ qs) =
      (joined separator ps).append (separator.append (joined separator qs)) := by
  obtain ⟨p, ps, rfl⟩ := List.exists_cons_of_ne_nil hp
  obtain ⟨q, qs, rfl⟩ := List.exists_cons_of_ne_nil hq
  rw [List.cons_append, joined_cons, joined_cons, joined_cons, List.map_append, concat_append,
    List.map_cons, concat]
  simp only [append_assoc]

theorem joined_cons_of_ne_nil (separator p : Language) {ps : List Language} (h : ps ≠ []) :
    joined separator (p :: ps) = p.append (separator.append (joined separator ps)) :=
  joined_append separator (List.cons_ne_nil p []) h

theorem joined_imp {separator separator' : Language} (h : ∀ t, separator t → separator' t)
    {ps : List Language} {t : List Char} (ht : joined separator ps t) :
    joined separator' ps t := by
  induction ps generalizing t with
  | nil => exact ht
  | cons p ps ih =>
    cases ps with
    | nil => exact ht
    | cons q ps =>
      obtain ⟨a, _, rfl, ha, s, b, rfl, hs, hb⟩ := ht
      exact ⟨a, _, rfl, ha, s, b, rfl, h s hs, ih hb⟩

/-- What is joined may be described otherwise, one by one. -/
theorem exists_joined {α β : Type} {R : α → β → Prop} {lang : α → Language} {lang' : β → Language}
    {separator : Language} {as : List α} {t : List Char}
    (h : ∀ a ∈ as, ∀ t, lang a t → ∃ b, R a b ∧ lang' b t) (ht : joined separator (as.map lang) t) :
    ∃ bs, List.Forall₂ R as bs ∧ joined separator (bs.map lang') t := by
  induction as generalizing t with
  | nil => exact ⟨[], .nil, ht⟩
  | cons a as ih =>
    cases as with
    | nil =>
      obtain ⟨b, hb, hlang⟩ := h a (by simp) t ht
      exact ⟨[b], .cons hb .nil, hlang⟩
    | cons a' as =>
      obtain ⟨u, _, rfl, hu, s, v, rfl, hs, hv⟩ := ht
      obtain ⟨b, hb, hlang⟩ := h a (by simp) u hu
      obtain ⟨_, hbs, hmore⟩ := ih (fun x hx => h x (by simp [hx])) hv
      cases hbs with
      | @cons _ b' _ bs hb' hbs =>
        exact ⟨b :: b' :: bs, .cons hb (.cons hb' hbs), u, _, rfl, hlang, s, v, rfl, hs, hmore⟩

/-- It makes no difference whether what is joined is joined in groups first. -/
theorem joined_flatMap {α : Type} (separator : Language) {f : α → List Language}
    (h : ∀ a, f a ≠ []) (as : List α) :
    joined separator (as.flatMap f) =
      joined separator (as.map fun a => joined separator (f a)) := by
  induction as with
  | nil => rfl
  | cons a as ih =>
    cases as with
    | nil => simp [joined]
    | cons a' as =>
      have hne : (a' :: as).flatMap f ≠ [] := by simp [h]
      rw [List.flatMap_cons, joined_append separator (h a) hne, ih]
      rfl

theorem Star.forall_mem {p : Char → Prop} {q : Language} {t : List Char} (h : Star q t)
    (hq : ∀ u, q u → ∀ c ∈ u, p c) : ∀ c ∈ t, p c := by
  induction h with
  | nil => simp
  | cons ha _ ih =>
    intro c hc
    rcases List.mem_append.1 hc with hc | hc
    · exact hq _ ha c hc
    · exact ih c hc

/-- Any number of characters, one at a time. -/
theorem star_chars {p : Char → Prop} {t : List Char} (h : Star (fun t => ∃ c, p c ∧ t = [c]) t) :
    ∀ c ∈ t, p c :=
  h.forall_mem fun _ ⟨c, hc, ht⟩ => by simpa [ht] using hc

theorem plus_chars {p : Char → Prop} {t : List Char} (h : plus (fun t => ∃ c, p c ∧ t = [c]) t) :
    t ≠ [] ∧ ∀ c ∈ t, p c := by
  obtain ⟨_, b, rfl, ⟨c, hc, rfl⟩, hb⟩ := h
  exact ⟨by simp, by simpa [hc] using star_chars hb⟩

theorem concat_singleton (p : Language) : concat [p] = p := append_nothing p

theorem append_intro {p q : Language} {a b : List Char} (ha : p a) (hb : q b) :
    p.append q (a ++ b) :=
  ⟨a, b, rfl, ha, hb⟩

/-- Strings with a word between every two are joined by it as texts are. -/
theorem joined_intercalate {α : Type} {as : List α} {lang : α → Language} {f : α → String}
    (h : ∀ a ∈ as, lang a (f a).toList) (w : String) :
    joined (word w) (as.map lang) (w.intercalate (as.map f)).toList := by
  induction as with
  | nil => rfl
  | cons a as ih =>
    have ha := h a (by simp)
    have hrest := ih fun b hb => h b (by simp [hb])
    cases as with
    | nil => simpa [joined] using ha
    | cons b as =>
      rw [List.map_cons, List.map_cons, List.map_cons, List.map_cons, joined,
        String.intercalate_cons_cons, String.toList_append, String.toList_append,
        List.append_assoc]
      exact append_intro ha (append_intro rfl hrest)

/-- There is one way alone to join strings. -/
theorem joined_word_iff {α : Type} {as : List α} {f : α → String} {w : String} {t : List Char} :
    joined (word w) (as.map fun a => word (f a)) t ↔ t = (w.intercalate (as.map f)).toList := by
  have hword : ∀ a ∈ as, word (f a) (f a).toList := fun _ _ => rfl
  refine ⟨fun h => ?_, fun h => h ▸ joined_intercalate hword w⟩
  clear hword
  induction as generalizing t with
  | nil => exact h
  | cons a as ih =>
    cases as with
    | nil => simpa [joined] using h
    | cons b as =>
      obtain ⟨u, _, rfl, rfl, s, v, rfl, rfl, hv⟩ := h
      simp only [ih hv, List.map_cons, String.intercalate_cons_cons, String.toList_append,
        List.append_assoc]

end Language

end Fleet.Text
