import Stencil.Store.Basic

/-!
# Layers of a store

`Store.OnTop s s'` says that two stores differ in their newest layers alone. Edits have this
property, and it carries over from a layer that is opened to the store below it when the layer is
dropped or folded: dropping it gives the store back as it was, and folding it changes nothing that
a reader sees.
-/

set_option autoImplicit false

namespace Stencil

namespace Entries

variable {α : Type}

/-- No key comes twice. -/
def Distinct (es : Entries α) : Prop := (es.map (·.1)).Nodup

/-- Putting a value adds its key at the end, unless it is there. -/
theorem keys_put (key : String) (value : α) (es : Entries α) :
    (es.put key value).map (·.1) =
      if key ∈ es.map (·.1) then es.map (·.1) else es.map (·.1) ++ [key] := by
  induction es with
  | nil => rfl
  | cons e es ih =>
      obtain ⟨k, v⟩ := e
      by_cases h : k = key
      · simp [put, h]
      · by_cases hmem : key ∈ es.map (·.1)
        · rw [if_pos hmem] at ih
          simp [put, h, ih, hmem]
        · rw [if_neg hmem] at ih
          simp [put, h, Ne.symm h, ih, hmem]

/-- Keys stay distinct when a value is put. -/
theorem Distinct.put {es : Entries α} (h : es.Distinct) (key : String) (value : α) :
    (es.put key value).Distinct := by
  unfold Distinct
  rw [keys_put]
  split
  · exact h
  · rename_i hmem
    rw [List.nodup_append]
    refine ⟨h, by simp, ?_⟩
    intro k hk k' hk'
    rw [List.mem_singleton.1 hk']
    intro heq
    rw [heq] at hk
    exact hmem hk

/-- Keys stay distinct when one is erased. -/
theorem Distinct.erase {es : Entries α} (h : es.Distinct) (key : String) :
    (es.erase key).Distinct := by
  have hsub : ((es.erase key).map (·.1)).Sublist (es.map (·.1)) := by
    induction es with
    | nil => exact List.Sublist.slnil
    | cons e es ih =>
        obtain ⟨k, v⟩ := e
        obtain ⟨-, hes⟩ := List.nodup_cons.1 h
        rw [Entries.erase]
        split
        · exact (ih hes).cons k
        · exact (ih hes).cons_cons k
  exact h.sublist hsub

/-- Nothing is found under a key that is not among the keys. -/
theorem get?_eq_none {es : Entries α} {key : String} (h : key ∉ es.map (·.1)) :
    es.get? key = none := by
  induction es with
  | nil => rfl
  | cons e es ih =>
      obtain ⟨k, v⟩ := e
      rw [List.map_cons, List.mem_cons, not_or] at h
      rw [get?, if_neg (Ne.symm h.1), ih h.2]

/-- Writing the entries of a map one after the other: what is read under a key afterwards is what
its entry wrote there, or what stood there before. `read` is how the key is read, and `written` what
a write leaves to be read. -/
theorem read_foldl {β γ : Type} (write : β → String × α → β) (read : β → Option γ)
    (written : α → Option γ) (key : String)
    (hwrite : ∀ b k v, read (write b (k, v)) = if k = key then written v else read b)
    {es : Entries α} (hes : es.Distinct) (b : β) :
    read (es.foldl write b) = (es.get? key).elim (read b) written := by
  induction es generalizing b with
  | nil => rfl
  | cons e es ih =>
      obtain ⟨k, v⟩ := e
      obtain ⟨hk, hes⟩ := List.nodup_cons.1 hes
      rw [List.foldl_cons, ih hes, get?, hwrite]
      by_cases h : k = key
      · -- no later entry writes to the same key
        rw [h] at hk
        rw [get?_eq_none hk, if_pos h, if_pos h]
        rfl
      · rw [if_neg h, if_neg h]

/-- Keys stay distinct when a layer is settled. -/
theorem Distinct.foldl_settle {base : Entries Value} (h : base.Distinct) (layer : Layer) :
    (layer.foldl settle base).Distinct := by
  induction layer generalizing base with
  | nil => exact h
  | cons change layer ih =>
      obtain ⟨key, _ | value⟩ := change
      · exact ih (h.erase key)
      · exact ih (h.put key value)

/-- Settling a layer: what is read under a key afterwards is what the layer says of it, or what
stood there before. -/
theorem get?_foldl_settle {layer : Layer} (h : layer.Distinct) (base : Entries Value)
    (key : String) :
    (layer.foldl settle base).get? key = (layer.get? key).getD (base.get? key) := by
  have hwrite (b : Entries Value) (k : String) (change : Option Value) :
      (settle b (k, change)).get? key = if k = key then id change else b.get? key := by
    cases change with
    | none => exact get?_erase k key b
    | some value => exact get?_put k key value b
  rw [read_foldl settle (get? key) id key hwrite h]
  cases layer.get? key <;> rfl

end Entries

namespace Store

/-- All layers of a store, the newest first. The settled values are the oldest layer. -/
def layers (s : Store) : List Layer := s.staged ++ [s.base.map fun e => (e.1, some e.2)]

/-- Stores that differ in the newest layer alone. A staged layer whose keys are distinct keeps them
so. -/
inductive OnTop : Store → Store → Prop
  | base (base base' : Entries Value) : OnTop ⟨base, []⟩ ⟨base', []⟩
  | layer (base : Entries Value) {layer layer' : Layer} (below : List Layer)
      (hdistinct : layer.Distinct → layer'.Distinct) :
      OnTop ⟨base, layer :: below⟩ ⟨base, layer' :: below⟩

section OnTop

variable {s s' s'' : Store}

/-- A store differs from itself in no layer. -/
theorem OnTop.refl (s : Store) : s.OnTop s := by
  obtain ⟨base, staged⟩ := s
  cases staged with
  | nil => exact .base base base
  | cons layer below => exact .layer base below id

/-- Writes to the newest layer one after the other are such writes together. -/
theorem OnTop.trans (h : s.OnTop s') (h' : s'.OnTop s'') : s.OnTop s'' := by
  cases h with
  | base base base' =>
      cases h' with
      | base _ base'' => exact .base base base''
  | layer base below hdistinct =>
      cases h' with
      | layer _ _ hdistinct' => exact .layer base below (hdistinct' ∘ hdistinct)

/-- Writes to the newest layer open and close none. -/
theorem OnTop.depth_eq (h : s.OnTop s') : s'.depth = s.depth := by
  cases h <;> rfl

/-- Writes to the newest layer leave those below as they were. -/
theorem OnTop.tail_layers (h : s.OnTop s') : s'.layers.tail = s.layers.tail := by
  cases h <;> rfl

/-- A change is written to the newest layer. -/
theorem onTop_edit (s : Store) (e : Edit) : s.OnTop (s.edit e) := by
  obtain ⟨base, staged⟩ := s
  cases staged with
  | nil => cases e <;> exact .base base _
  | cons layer below => cases e <;> exact .layer base below fun h => h.put _ _

/-- Changes are written to the newest layer. -/
theorem onTop_edits (s : Store) (es : List Edit) : s.OnTop (s.edits es) := by
  induction es generalizing s with
  | nil => exact .refl s
  | cons e es ih => exact (onTop_edit s e).trans (ih (s.edit e))

/-- What becomes of a layer that is opened is a layer of its own. -/
theorem OnTop.exists_layer (h : s.begin.OnTop s') :
    ∃ layer : Layer, layer.Distinct ∧ s' = ⟨s.base, layer :: s.staged⟩ := by
  obtain ⟨base, staged⟩ := s
  cases h with
  | layer _ _ hdistinct => exact ⟨_, hdistinct List.nodup_nil, rfl⟩

/-- Dropping a layer that was opened gives the store back as it was. -/
theorem OnTop.rollback_eq (h : s.begin.OnTop s') : s'.rollback = s := by
  obtain ⟨layer, -, rfl⟩ := h.exists_layer
  rfl

/-- Keys stay distinct when a layer is put into the one below. -/
theorem distinct_foldl_put {layer below : Layer} (h : below.Distinct) :
    (layer.foldl (fun l change => l.put change.1 change.2) below).Distinct := by
  induction layer generalizing below with
  | nil => exact h
  | cons change layer ih => exact ih (h.put _ _)

/-- Folding a layer that was opened changes the layer below it alone. -/
theorem OnTop.commit (h : s.begin.OnTop s') : s.OnTop s'.commit := by
  obtain ⟨layer, -, rfl⟩ := h.exists_layer
  obtain ⟨base, staged⟩ := s
  cases staged with
  | nil => exact .base base _
  | cons below rest => exact .layer base rest distinct_foldl_put

/-- Folding a layer that was opened changes nothing that a reader sees. -/
theorem OnTop.view_commit (h : s.begin.OnTop s') : s'.commit.view = s'.view := by
  obtain ⟨layer, hlayer, rfl⟩ := h.exists_layer
  obtain ⟨base, staged⟩ := s
  funext key
  cases staged with
  | nil =>
      show (layer.foldl Entries.settle base).get? key = find? base key [layer]
      rw [Entries.get?_foldl_settle hlayer, find?]
      cases layer.get? key <;> rfl
  | cons below rest =>
      have hread := Entries.read_foldl (fun l change => l.put change.1 change.2)
        (Entries.get? key) some key (fun b k change => Entries.get?_put k key change b) hlayer below
      show find? base key (layer.foldl (fun l change => l.put change.1 change.2) below :: rest) =
        find? base key (layer :: below :: rest)
      rw [find?, hread, find?, find?]
      cases layer.get? key <;> rfl

end OnTop

end Store

end Stencil
