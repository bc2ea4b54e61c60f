import Mathlib.Data.List.Infix
import Mathlib.Data.Set.Function

/-! Radix trees with compressed paths. A key ends in a digit that occurs nowhere else in it, so that a key
which starts another one still has a place of its own. In normal form a short node is a leaf or stands in
front of a branch, and a branch has at least two entries; a tree in normal form is determined by the map it
stands for, and inserting and deleting keep the form. -/

set_option linter.unusedSectionVars false

namespace Patricia

open Function
open List hiding lookup

variable {α V : Type}

inductive Tree (α V : Type) where
  | empty
  | value (v : V)
  | short (key : List α) (child : Tree α V)
  | full (children : α → Tree α V)

/-- The key ends in `stop`, which does not occur before. -/
def Ends (stop : α) (key : List α) : Prop := ∃ digits, stop ∉ digits ∧ key = digits ++ [stop]

/-- The trees in normal form that are not empty. -/
inductive Normal (stop : α) : Tree α V → Prop
  | leaf {key : List α} {v : V} (hkey : Ends stop key) : Normal stop (.short key (.value v))
  | extension {key : List α} {children : α → Tree α V} (hne : key ≠ []) (hkey : stop ∉ key)
      (hchild : Normal stop (.full children)) : Normal stop (.short key (.full children))
  | branch {children : α → Tree α V} (hstop : children stop = .empty ∨ ∃ v, children stop = .value v)
      (hchildren : ∀ i, i ≠ stop → children i ≠ .empty → Normal stop (children i))
      (htwo : ∃ i j, i ≠ j ∧ children i ≠ .empty ∧ children j ≠ .empty) : Normal stop (.full children)

variable {stop : α} {key front : List α}

theorem Normal.ne_empty {t : Tree α V} (h : Normal stop t) : t ≠ .empty := by
  cases h <;> nofun

/-- What may stand below a digit of a branch. -/
def Slot (stop i : α) (t : Tree α V) : Prop :=
  t = .empty ∨ (i = stop ∧ ∃ v, t = .value v) ∨ (i ≠ stop ∧ Normal stop t)

theorem normal_full {children : α → Tree α V} (hslot : ∀ i, Slot stop i (children i))
    (htwo : ∃ i j, i ≠ j ∧ children i ≠ .empty ∧ children j ≠ .empty) : Normal stop (.full children) := by
  refine .branch ?_ (fun i hi hne => ?_) htwo
  · obtain h | ⟨-, h⟩ | ⟨h, -⟩ := hslot stop
    · exact .inl h
    · exact .inr h
    · exact absurd rfl h
  · obtain h | ⟨h, -⟩ | ⟨-, h⟩ := hslot i
    · exact absurd h hne
    · exact absurd h hi
    · exact h

theorem ends_cons {i : α} (h : Ends stop (i :: key)) : (i = stop ∧ key = []) ∨ (i ≠ stop ∧ Ends stop key) := by
  obtain ⟨digits, hdigits, heq⟩ := h
  cases digits with
  | nil =>
    cases heq
    exact .inl ⟨rfl, rfl⟩
  | cons j digits =>
    cases heq
    exact .inr ⟨fun h => hdigits (h ▸ mem_cons_self), digits, fun h => hdigits (mem_cons_of_mem _ h), rfl⟩

theorem Ends.ne_nil (h : Ends stop key) : key ≠ [] := by
  obtain ⟨digits, -, rfl⟩ := h
  exact append_ne_nil_of_right_ne_nil _ (cons_ne_nil _ _)

theorem Ends.mem (h : Ends stop key) : stop ∈ key := by
  obtain ⟨digits, -, rfl⟩ := h
  exact mem_append_right _ (mem_singleton_self stop)

theorem ends_singleton (stop : α) : Ends stop [stop] := ⟨[], not_mem_nil, rfl⟩

theorem Ends.append (hfront : stop ∉ front) (h : Ends stop key) : Ends stop (front ++ key) := by
  obtain ⟨digits, hdigits, rfl⟩ := h
  refine ⟨front ++ digits, ?_, (append_assoc _ _ _).symm⟩
  rw [mem_append]
  exact fun h => h.elim hfront hdigits

/-- What is left of a key behind a part of it: nothing, if the part has the end. -/
theorem ends_append (h : Ends stop (front ++ key)) : (Ends stop front ∧ key = []) ∨ (stop ∉ front ∧ Ends stop key) := by
  induction front with
  | nil => exact .inr ⟨not_mem_nil, h⟩
  | cons i front ih =>
    obtain ⟨rfl, hnil⟩ | ⟨hi, hrest⟩ := ends_cons h
    · obtain ⟨rfl, rfl⟩ := append_eq_nil_iff.mp hnil
      exact .inl ⟨ends_singleton _, rfl⟩
    · obtain ⟨⟨digits, hdigits, rfl⟩, hkey⟩ | ⟨hfront, hkey⟩ := ih hrest
      · refine .inl ⟨⟨i :: digits, ?_, rfl⟩, hkey⟩
        exact not_mem_cons_of_ne_of_not_mem (Ne.symm hi) hdigits
      · refine .inr ⟨?_, hkey⟩
        exact not_mem_cons_of_ne_of_not_mem (Ne.symm hi) hfront

/-- Two paths that part at some digit. -/
def Parts (path key : List α) : Prop :=
  ∃ front i path' j key', i ≠ j ∧ path = front ++ i :: path' ∧ key = front ++ j :: key'

/-- A key that does not go on from a path, and does not stop on the way along it, leaves it. -/
theorem parts_of_not {path : List α} (h : ¬ path <+: key) (h' : ¬ key <+: path) : Parts path key := by
  induction path generalizing key with
  | nil => exact absurd key.nil_prefix h
  | cons i path ih =>
    cases key with
    | nil => exact absurd List.nil_prefix h'
    | cons j key =>
      by_cases hij : i = j
      · subst hij
        rw [cons_prefix_cons] at h h'
        obtain ⟨front, i', path', j', key', hne, rfl, rfl⟩ :=
          ih (fun hp => h ⟨rfl, hp⟩) (fun hp => h' ⟨rfl, hp⟩)
        exact ⟨i :: front, i', path', j', key', hne, rfl, rfl⟩
      · exact ⟨[], i, path, j, key, hij, rfl, rfl⟩

section Lookup

variable [DecidableEq α]

/-- The map that has another map behind a common path. -/
def under (key : List α) (f : List α → Option V) (path : List α) : Option V :=
  if key <+: path then f (path.drop key.length) else none

theorem under_append (key : List α) (f : List α → Option V) (path : List α) : under key f (key ++ path) = f path := by
  rw [under, if_pos (prefix_append key path), drop_left]

variable {key path : List α} {children : α → Tree α V} {t : Tree α V} {i : α}

theorem under_of_not (f : List α → Option V) (h : ¬ key <+: path) :
    under key f path = none := if_neg h

theorem under_nil (f : List α → Option V) : under [] f = f := by
  funext path
  exact under_append [] f path

theorem under_none (key : List α) : under key (fun _ => (none : Option V)) = fun _ => none := by
  funext path
  rw [under, ite_self]

theorem under_under (a b : List α) (f : List α → Option V) : under a (under b f) = under (a ++ b) f := by
  funext path
  by_cases ha : a <+: path
  · obtain ⟨rest, rfl⟩ := ha
    rw [under_append]
    by_cases hb : b <+: rest
    · obtain ⟨rest, rfl⟩ := hb
      rw [under_append, ← append_assoc, under_append]
    · rw [under_of_not f hb, under_of_not f fun h => hb ((prefix_append_right_inj a).mp h)]
  · rw [under_of_not _ ha, under_of_not f fun h => ha ((prefix_append a b).trans h)]

theorem under_update (key : List α) (f : List α → Option V) (path : List α) (x : Option V) :
    under key (update f path x) = update (under key f) (key ++ path) x := by
  funext q
  by_cases hq : key <+: q
  · obtain ⟨rest, rfl⟩ := hq
    rw [under_append, update_apply_of_injective _ (append_right_injective key)]
    simp only [under_append]
  · have hne : q ≠ key ++ path := by
      rintro rfl
      exact hq (prefix_append key path)
    rw [under_of_not _ hq, update_of_ne hne, under_of_not f hq]

namespace Tree

/-- The map a tree stands for. -/
def lookup : Tree α V → List α → Option V
  | empty, _ => none
  | value v, path => update (fun _ => none) [] (some v) path
  | short key child, path => under key child.lookup path
  | full _, [] => none
  | full children, i :: path => (children i).lookup path

/-- A tree behind a path, if there is a path. -/
def stem (key : List α) (t : Tree α V) : Tree α V := if key = [] then t else short key t

/-- A short node in front of a tree: two short nodes become one. -/
def join (key : List α) : Tree α V → Tree α V
  | short key' child => short (key ++ key') child
  | t => short key t

/-- The branch where two paths part, behind what they share. -/
def fork : List α → Tree α V → List α → Tree α V → Tree α V
  | i :: path, t, j :: key, u =>
    if i = j then join [i] (fork path t key u)
    else full (update (update (fun _ => empty) i (stem path t)) j (stem key u))
  | _, _, _, _ => empty

def put (v : V) : Tree α V → List α → Tree α V
  | empty, key => stem key (value v)
  | value _, _ => value v
  | short path child, key =>
    if path <+: key then short path (put v child (key.drop path.length)) else fork path child key (value v)
  | full _, [] => value v
  | full children, i :: key => full (update children i (put v (children i) key))

open Classical in
noncomputable def reduce (children : α → Tree α V) : Tree α V :=
  if h : ∃ pos, ∀ i, children i ≠ empty ↔ i = pos then join [h.choose] (children h.choose) else full children

noncomputable def erase : Tree α V → List α → Tree α V
  | empty, _ => empty
  | value _, _ => empty
  | short path child, key =>
    if path <+: key then if path = key then empty else join path (erase child (key.drop path.length))
    else short path child
  | full children, [] => full children
  | full children, i :: key => reduce (update children i (erase (children i) key))

theorem lookup_stem (key : List α) (t : Tree α V) : (stem key t).lookup = under key t.lookup := by
  rw [stem]
  split
  · rename_i hkey
    rw [hkey, under_nil]
  · rfl

theorem lookup_join (key : List α) (t : Tree α V) : (join key t).lookup = under key t.lookup := by
  cases t with
  | short key' child => exact (under_under key key' child.lookup).symm
  | _ => rfl

theorem lookup_put_empty (v : V) (key : List α) :
    (put v empty key).lookup = update (empty : Tree α V).lookup key (some v) := by
  calc (stem key (value v)).lookup
      _ = under key (value v).lookup := lookup_stem key (value v)
      _ = update (under key fun _ => none) (key ++ []) (some v) := under_update key _ [] (some v)
      _ = update (empty : Tree α V).lookup key (some v) := by
          rw [append_nil, under_none]
          rfl

theorem lookup_full_cons (children : α → Tree α V) (i : α) (path : List α) :
    (full children).lookup (i :: path) = (children i).lookup path := rfl

theorem lookup_full_update {x : Option V} (h : t.lookup = update (children i).lookup key x) :
    (full (update children i t)).lookup = update (full children).lookup (i :: key) x := by
  funext path
  cases path with
  | nil => rw [update_of_ne (cons_ne_nil i key).symm]; rfl
  | cons j path =>
    rw [lookup_full_cons]
    by_cases hj : j = i
    · subst hj
      rw [update_self, h]
      rw [update_apply_of_injective _ cons_injective]
      rfl
    · rw [update_of_ne hj, update_of_ne fun heq => hj (List.cons.inj heq).1]
      rfl

theorem lookup_fork (h : Parts path key) (t : Tree α V) (v : V) :
    (fork path t key (value v)).lookup = update (under path t.lookup) key (some v) := by
  obtain ⟨front, i, path', j, key', hne, rfl, rfl⟩ := h
  induction front with
  | nil =>
    rw [nil_append, nil_append, fork, if_neg hne]
    have hj : (stem key' (value v)).lookup =
        update (update (fun _ => empty) i (stem path' t) j).lookup key' (some v) := by
      rw [update_of_ne hne.symm]
      exact lookup_put_empty v key'
    rw [lookup_full_update hj]
    congr 1
    funext q
    cases q with
    | nil => rfl
    | cons a q =>
      rw [lookup_full_cons]
      by_cases ha : a = i
      · subst ha
        rw [update_self, lookup_stem]
        calc under path' t.lookup q
            _ = under [a] (under path' t.lookup) (a :: q) := (under_append [a] _ q).symm
            _ = under (a :: path') t.lookup (a :: q) := congrFun (under_under [a] path' t.lookup) (a :: q)
      · rw [update_of_ne ha, under_of_not]
        · rfl
        · exact fun hp => ha (cons_prefix_cons.mp hp).1.symm
  | cons a front ih =>
    rw [cons_append, cons_append, fork, if_pos rfl, lookup_join, ih, under_update, under_under]
    rfl

end Tree

/-! ### Trees in normal form -/

open Tree

variable {stop : α}

theorem child_cases (h : Normal stop (full children)) (i : α) : Slot stop i (children i) := by
  obtain _ | _ | ⟨hstop, hchildren, -⟩ := h
  by_cases hempty : children i = empty
  · exact .inl hempty
  by_cases hi : i = stop
  · subst hi
    exact .inr (.inl ⟨rfl, hstop.resolve_left hempty⟩)
  · exact .inr (.inr ⟨hi, hchildren i hi hempty⟩)

theorem Normal.two (h : Normal stop (full children)) : ∃ i j, i ≠ j ∧ children i ≠ empty ∧ children j ≠ empty := by
  cases h with
  | branch _ _ htwo => exact htwo

theorem Normal.exists_lookup (h : Normal stop t) : ∃ path v, t.lookup path = some v := by
  induction h with
  | @leaf key v hkey => exact ⟨key ++ [], v, (under_append key _ []).trans (update_self ..)⟩
  | @extension key children hne hkey hchild ih =>
    obtain ⟨path, v, hv⟩ := ih
    exact ⟨key ++ path, v, (under_append key _ path).trans hv⟩
  | @branch children hstop hchildren htwo ih =>
    obtain ⟨i, -, -, hi, -⟩ := htwo
    by_cases hs : i = stop
    · subst hs
      obtain ⟨v, hv⟩ := hstop.resolve_left hi
      exact ⟨[i], v, by rw [lookup_full_cons, hv]; exact update_self ..⟩
    · obtain ⟨path, v, hv⟩ := ih i hs hi
      exact ⟨i :: path, v, hv⟩

theorem exists_lookup_child (h : Normal stop (full children))
    (hi : children i ≠ empty) : ∃ path v, (children i).lookup path = some v := by
  obtain hempty | ⟨-, v, hv⟩ | ⟨-, hnormal⟩ := child_cases h i
  · exact absurd hempty hi
  · refine ⟨[], v, ?_⟩
    rw [hv]
    exact update_self ..
  · exact hnormal.exists_lookup

theorem exists_lookup_two (h : Normal stop (full children)) :
    ∃ i j path path' v v', i ≠ j ∧ (full children).lookup (i :: path) = some v ∧
      (full children).lookup (j :: path') = some v' := by
  obtain ⟨i, j, hij, hi, hj⟩ := h.two
  obtain ⟨path, v, hv⟩ := exists_lookup_child h hi
  obtain ⟨path', v', hv'⟩ := exists_lookup_child h hj
  exact ⟨i, j, path, path', v, v', hij, hv, hv'⟩

theorem prefix_of_under {f : List α → Option V} {v : V} (h : under key f path = some v) : key <+: path := by
  by_contra hn
  rw [under_of_not f hn] at h
  cases h

theorem lookup_leaf_eq_some {v w : V} (h : (short key (value v)).lookup path = some w) : path = key ∧ w = v := by
  obtain ⟨rest, rfl⟩ := prefix_of_under h
  rw [lookup, under_append, lookup] at h
  by_cases hrest : rest = []
  · subst hrest
    exact ⟨append_nil _, (Option.some.inj h).symm⟩
  · rw [update_of_ne hrest] at h
    cases h

/-- The path of an extension is shared by all entries, and nothing longer is. -/
theorem length_le_of_extension {key' : List α}
    (h : Normal stop (full children)) (heq : (short key (full children)).lookup = (short key' t).lookup) :
    key' <+: key := by
  obtain ⟨i, j, path, path', v, v', hij, hv, hv'⟩ := exists_lookup_two h
  have hkey' : ∀ {path v}, (full children).lookup path = some v → key' <+: key ++ path := fun {path} _ hv =>
    prefix_of_under (f := t.lookup) ((congrFun heq (key ++ path)).symm.trans ((under_append key _ _).trans hv))
  have hi := hkey' hv
  have hj := hkey' hv'
  rcases prefix_or_prefix_of_prefix hi (prefix_append key (i :: path)) with h | ⟨rest, rfl⟩
  · exact h
  rw [prefix_append_right_inj] at hi hj
  cases rest with
  | nil => rw [append_nil]
  | cons a rest =>
    rw [cons_prefix_cons] at hi hj
    exact absurd (hi.1.symm.trans hj.1) hij

/-- Behind a path all entries start with the same digit, in a branch they do not. -/
theorem lookup_short_ne_branch (hne : key ≠ []) (h : Normal stop (full children)) :
    (short key t).lookup ≠ (full children).lookup := by
  intro heq
  obtain ⟨i, j, path, path', v, v', hij, hv, hv'⟩ := exists_lookup_two h
  have hi := prefix_of_under ((congrFun heq _).trans hv)
  have hj := prefix_of_under ((congrFun heq _).trans hv')
  cases key with
  | nil => exact hne rfl
  | cons a key => exact hij ((cons_prefix_cons.mp hi).1.symm.trans (cons_prefix_cons.mp hj).1)

theorem lookup_leaf_ne_extension {key' : List α} (v : V) (h : Normal stop (full children)) :
    (short key (value v)).lookup ≠ (short key' (full children)).lookup := by
  intro heq
  obtain ⟨i, j, path, path', v, v', hij, hv, hv'⟩ := exists_lookup_two h
  have hi := (lookup_leaf_eq_some ((congrFun heq _).trans ((under_append key' _ _).trans hv))).1
  have hj := (lookup_leaf_eq_some ((congrFun heq _).trans ((under_append key' _ _).trans hv'))).1
  exact hij (List.cons.inj (append_cancel_left (hi.trans hj.symm))).1

theorem Normal.ext {u : Tree α V} (ht : Normal stop t) (hu : Normal stop u) (h : t.lookup = u.lookup) : t = u := by
  induction ht generalizing u with
  | @leaf key v hkey =>
    cases hu with
    | @leaf key' v' _ =>
      have hself : (short key' (value v')).lookup (key ++ []) = some v :=
        (congrFun h _).symm.trans ((under_append key _ []).trans (update_self ..))
      rw [append_nil] at hself
      obtain ⟨rfl, rfl⟩ := lookup_leaf_eq_some hself
      rfl
    | extension _ _ hchild => exact absurd h (lookup_leaf_ne_extension v hchild)
    | branch hstop hchildren htwo =>
      exact absurd h (lookup_short_ne_branch hkey.ne_nil (.branch hstop hchildren htwo))
  | @extension key children hne hkey hchild ih =>
    cases hu with
    | leaf _ => exact absurd h.symm (lookup_leaf_ne_extension _ hchild)
    | @extension key' children' hne' hkey' hchild' =>
      have hle := length_le_of_extension hchild h
      have hge := length_le_of_extension hchild' h.symm
      obtain rfl : key = key' := hge.eq_of_length_le hle.length_le
      congr 1
      refine ih hchild' ?_
      funext path
      have := congrFun h (key ++ path)
      rwa [lookup, lookup, under_append, under_append] at this
    | branch hstop hchildren htwo =>
      exact absurd h (lookup_short_ne_branch hne (.branch hstop hchildren htwo))
  | @branch children hstop hchildren htwo ih =>
    have hbranch : Normal stop (full children) := .branch hstop hchildren htwo
    cases hu with
    | leaf hkey' => exact absurd h.symm (lookup_short_ne_branch hkey'.ne_nil hbranch)
    | extension hne' _ _ => exact absurd h.symm (lookup_short_ne_branch hne' hbranch)
    | @branch children' hstop' hchildren' htwo' =>
      have hbranch' : Normal stop (full children') := .branch hstop' hchildren' htwo'
      congr 1
      funext a
      have ha : (children a).lookup = (children' a).lookup := by
        funext q
        exact congrFun h (a :: q)
      obtain hempty | ⟨rfl, w, hw⟩ | ⟨hstop, hnormal⟩ := child_cases hbranch a
      · by_contra hne
        obtain ⟨q, w, hw⟩ := exists_lookup_child hbranch' (i := a) (by rw [← hempty]; exact fun h => hne h.symm)
        rw [← ha, hempty] at hw
        cases hw
      · have hself : (children' a).lookup [] = some w := by
          rw [← ha, hw]
          exact update_self ..
        obtain hempty' | ⟨-, w', hw'⟩ | ⟨hne, -⟩ := child_cases hbranch' a
        · rw [hempty'] at hself
          cases hself
        · rw [hw', lookup, update_self] at hself
          rw [hw, hw', Option.some.inj hself]
        · exact absurd rfl hne
      · obtain hempty' | ⟨hs, -⟩ | ⟨-, hnormal'⟩ := child_cases hbranch' a
        · obtain ⟨q, w, hw⟩ := hnormal.exists_lookup
          rw [ha, hempty'] at hw
          cases hw
        · exact absurd hs hstop
        · exact ih a hstop hnormal.ne_empty hnormal' ha

/-! ### Inserting -/

theorem fork_append {j : α} (hne : i ≠ j) (front path key : List α) (t u : Tree α V) :
    fork (front ++ i :: path) t (front ++ j :: key) u =
      stem front (full (update (update (fun _ => empty) i (stem path t)) j (stem key u))) := by
  induction front with
  | nil =>
    rw [nil_append, nil_append, fork, if_neg hne]
    rfl
  | cons a front ih =>
    rw [cons_append, cons_append, fork, if_pos rfl, ih]
    cases front <;> rfl

theorem slot_update (hslot : ∀ i, Slot stop i (children i))
    (ht : Slot stop i t) (j : α) : Slot stop j (update children i t j) := by
  exact (forall_update_iff _ (Slot stop)).mpr ⟨ht, fun j _ => hslot j⟩ j

theorem slot_leaf (h : Ends stop (i :: key)) (v : V) : Slot stop i (stem key (value v)) := by
  obtain ⟨hi, rfl⟩ | ⟨hi, hkey⟩ := ends_cons h
  · exact .inr (.inl ⟨hi, v, rfl⟩)
  · rw [stem, if_neg hkey.ne_nil]
    exact .inr (.inr ⟨hi, .leaf hkey⟩)

theorem slot_short (h : Normal stop (short (front ++ i :: path) t)) : Slot stop i (stem path t) := by
  cases h with
  | leaf hkey =>
    obtain ⟨-, hnil⟩ | ⟨-, hrest⟩ := ends_append hkey
    · cases hnil
    · exact slot_leaf hrest _
  | extension hne hkey hchild =>
    rw [mem_append, mem_cons, not_or, not_or] at hkey
    refine .inr (.inr ⟨fun h => hkey.2.1 h.symm, ?_⟩)
    rw [stem]
    split
    · exact hchild
    · rename_i hpath
      exact .extension hpath hkey.2.2 hchild

theorem stem_ne_empty (h : t ≠ empty) : stem key t ≠ empty := by
  rw [stem]
  split
  · exact h
  · nofun

theorem normal_stem_full (hkey : stop ∉ key)
    (h : Normal stop (full children)) : Normal stop (stem key (full children)) := by
  rw [stem]
  split
  · exact h
  · rename_i hne
    exact .extension hne hkey h

theorem normal_fork (hpath : Normal stop (short path t)) (hkey : Ends stop key)
    (h : Parts path key) (v : V) : Normal stop (fork path t key (value v)) := by
  obtain ⟨front, i, path', j, key', hne, rfl, rfl⟩ := h
  rw [fork_append hne]
  have ht : t ≠ empty := by
    cases hpath <;> nofun
  obtain ⟨-, hnil⟩ | ⟨hfront, hrest⟩ := ends_append hkey
  · cases hnil
  refine normal_stem_full hfront (normal_full ?_ ⟨i, j, hne, ?_, ?_⟩)
  · have hnone : ∀ i : α, Slot stop i (empty : Tree α V) := fun _ => .inl rfl
    exact slot_update (slot_update hnone (slot_short hpath)) (slot_leaf hrest v)
  · rw [update_of_ne hne, update_self]
    exact stem_ne_empty ht
  · rw [update_self]
    exact stem_ne_empty nofun

theorem parts_of_normal (hpath : Normal stop (short path t))
    (hkey : Ends stop key) (h : ¬ path <+: key) : Parts path key := by
  refine parts_of_not h ?_
  rintro ⟨rest, rfl⟩
  cases hpath with
  | leaf hends =>
    obtain ⟨-, rfl⟩ | ⟨hnot, -⟩ := ends_append hends
    · rw [append_nil] at h
      exact h (prefix_refl key)
    · exact hnot hkey.mem
  | extension _ hnot _ => exact hnot (mem_append_left _ hkey.mem)

theorem eq_of_ends (hpath : Ends stop path) (hkey : Ends stop key) (h : path <+: key) : path = key := by
  obtain ⟨rest, rfl⟩ := h
  obtain ⟨-, rfl⟩ | ⟨hnot, -⟩ := ends_append hkey
  · rw [append_nil]
  · exact absurd hpath.mem hnot

theorem ends_drop (hpath : stop ∉ path) (hkey : Ends stop key) (h : path <+: key) :
    ∃ rest, key = path ++ rest ∧ Ends stop rest := by
  obtain ⟨rest, rfl⟩ := h
  obtain ⟨hends, -⟩ | ⟨-, hrest⟩ := ends_append hkey
  · exact absurd hends.mem hpath
  · exact ⟨rest, rfl, hrest⟩

/-- The way of a key down a tree, to its value or to where the key leaves the tree. -/
inductive Walk (stop : α) : Tree α V → List α → Prop
  | missing {path key : List α} {t : Tree α V} (h : Normal stop (short path t)) (hkey : Ends stop key)
      (hp : ¬ path <+: key) : Walk stop (short path t) key
  | leaf {key : List α} {v : V} (hkey : Ends stop key) : Walk stop (short key (value v)) key
  | extension {path key : List α} {children : α → Tree α V} (hne : path ≠ []) (hpath : stop ∉ path)
      (h : Normal stop (full children)) (hkey : Ends stop key) (below : Walk stop (full children) key) :
      Walk stop (short path (full children)) (path ++ key)
  | empty (key : List α) : Walk stop empty key
  | value (v : V) : Walk stop (value v) []
  | branch {children : α → Tree α V} {i : α} {key : List α} (h : Normal stop (full children))
      (hkey : Ends stop (i :: key)) (below : Walk stop (children i) key) : Walk stop (full children) (i :: key)

theorem walk (h : t = empty ∨ Normal stop t) (hkey : Ends stop key) : Walk stop t key := by
  obtain rfl | h := h
  · exact .empty key
  induction h generalizing key with
  | @leaf path w hpath =>
    by_cases hp : path <+: key
    · obtain rfl := eq_of_ends hpath hkey hp
      exact .leaf hpath
    · exact .missing (.leaf hpath) hkey hp
  | @extension path children hne hpath hchild ih =>
    by_cases hp : path <+: key
    · obtain ⟨rest, rfl, hrest⟩ := ends_drop hpath hkey hp
      exact .extension hne hpath hchild hrest (ih hrest)
    · exact .missing (.extension hne hpath hchild) hkey hp
  | @branch children hstop hchildren htwo ih =>
    cases key with
    | nil => exact absurd rfl hkey.ne_nil
    | cons i key =>
      refine .branch (.branch hstop hchildren htwo) hkey ?_
      by_cases hempty : children i = empty
      · rw [hempty]
        exact .empty key
      obtain ⟨rfl, rfl⟩ | ⟨hi, hkey⟩ := ends_cons hkey
      · obtain ⟨w, hw⟩ := hstop.resolve_left hempty
        rw [hw]
        exact .value w
      · exact ih i hi hempty hkey

theorem Walk.ne_nil (h : Walk stop t key) (hnormal : Normal stop t) : key ≠ [] := by
  cases h with
  | missing _ hkey _ | leaf hkey => exact hkey.ne_nil
  | extension hne _ _ _ _ => exact append_ne_nil_of_left_ne_nil hne _
  | empty _ => exact absurd rfl hnormal.ne_empty
  | value _ => cases hnormal
  | branch _ _ _ => nofun

theorem put_short_append (v : V) (path key : List α) (t : Tree α V) :
    put v (short path t) (path ++ key) = short path (put v t key) := by
  rw [put, if_pos (prefix_append path key), drop_left]

theorem put_leaf (v w : V) (key : List α) : put v (short key (value w)) key = short key (value v) := by
  rw [put, if_pos (prefix_refl key), drop_length]
  rfl

theorem lookup_leaf_update (path : List α) (w : V) (x : Option V) :
    under path (update (value w : Tree α V).lookup [] x) = update (short path (value w)).lookup path x := by
  rw [under_update, append_nil]
  rfl

theorem lookup_put_value (v w : V) : (put v (value w : Tree α V) []).lookup = update (value w).lookup [] (some v) := by
  calc (value v).lookup
      _ = update (update (fun _ => none) [] (some w)) [] (some v) :=
          (update_idem ..).symm
      _ = update (value w).lookup [] (some v) := rfl

theorem lookup_put_of_walk (h : Walk stop t key) (v : V) : (put v t key).lookup = update t.lookup key (some v) := by
  induction h with
  | @missing path key t h hkey hp =>
    rw [put, if_neg hp]
    exact lookup_fork (parts_of_normal h hkey hp) t v
  | @leaf path w hpath =>
    calc (put v (short path (value w)) path).lookup
        _ = under path (put v (value w) []).lookup := by
            rw [put_leaf]
            rfl
        _ = update (short path (value w)).lookup path (some v) := by
            rw [lookup_put_value, lookup_leaf_update]
  | @extension path key children _ _ _ _ _ ih =>
    rw [put_short_append]
    change under path (put v (full children) key).lookup = _
    rw [ih, under_update]
    rfl
  | empty key => exact lookup_put_empty v key
  | value w => exact lookup_put_value v w
  | branch _ _ _ ih => exact lookup_full_update ih

theorem put_nil (h : Walk stop t key) (hnil : key = []) (v : V) : put v t key = value v := by
  cases h with
  | missing _ hkey _ | leaf hkey => exact absurd hnil hkey.ne_nil
  | extension hne _ _ _ _ => exact absurd (append_eq_nil_iff.mp hnil).1 hne
  | empty _ =>
    rw [hnil]
    rfl
  | value _ => rfl
  | branch _ _ _ => cases hnil

theorem Normal.lookup_put (h : Normal stop t) (hkey : Ends stop key) (v : V) :
    (put v t key).lookup = update t.lookup key (some v) :=
  lookup_put_of_walk (walk (.inr h) hkey) v

theorem normal_put (v : V) (h : t = empty ∨ Normal stop t) (hkey : Ends stop key) : Normal stop (put v t key) := by
  have hwalk := walk h hkey
  clear h
  induction hwalk with
  | @missing path key t h _ hp =>
    rw [put, if_neg hp]
    exact normal_fork h hkey (parts_of_normal h hkey hp) v
  | leaf _ =>
    rw [put_leaf]
    exact .leaf hkey
  | @extension path key children hne hpath _ hrest below ih =>
    rw [put_short_append]
    have hbelow := ih hrest
    cases below with
    | branch _ _ _ => exact .extension hne hpath hbelow
  | empty key =>
    rw [put, stem, if_neg hkey.ne_nil]
    exact .leaf hkey
  | value w => exact absurd rfl hkey.ne_nil
  | @branch children i key hbranch _ below ih =>
    have hslot : Slot stop i (put v (children i) key) ∧ put v (children i) key ≠ empty := by
      obtain ⟨rfl, rfl⟩ | ⟨hi, hrest⟩ := ends_cons hkey
      · rw [put_nil below rfl v]
        exact ⟨.inr (.inl ⟨rfl, v, rfl⟩), nofun⟩
      · exact ⟨.inr (.inr ⟨hi, ih hrest⟩), (ih hrest).ne_empty⟩
    refine normal_full (slot_update (child_cases hbranch) hslot.1) ?_
    obtain ⟨a, b, hab, ha, hb⟩ := hbranch.two
    have hkeeps : ∀ c, children c ≠ empty → update children i (put v (children i) key) c ≠ empty := by
      exact (forall_update_iff _ fun c t => children c ≠ empty → t ≠ empty).mpr ⟨fun _ => hslot.2, fun c _ hc => hc⟩
    exact ⟨a, b, hab, hkeeps a ha, hkeeps b hb⟩

/-! ### Deleting -/

theorem normal_join (hne : key ≠ []) (hkey : stop ∉ key) (h : Normal stop t) : Normal stop (join key t) := by
  cases h with
  | leaf hends => exact .leaf (hends.append hkey)
  | extension hne' hkey' hchild =>
    refine .extension (append_ne_nil_of_left_ne_nil hne _) ?_ hchild
    rw [mem_append]
    exact fun hmem => hmem.elim hkey hkey'
  | branch hstop hchildren htwo => exact .extension hne hkey (.branch hstop hchildren htwo)

theorem reduce_of_unique {pos : α} (h : ∀ i, children i ≠ empty ↔ i = pos) :
    reduce children = join [pos] (children pos) := by
  have hex : ∃ pos, ∀ i, children i ≠ empty ↔ i = pos := ⟨pos, h⟩
  have hpos : hex.choose = pos := (h _).mp ((hex.choose_spec _).mpr rfl)
  rw [reduce, dif_pos hex, hpos]

theorem reduce_of_two (h : ∃ i j, i ≠ j ∧ children i ≠ empty ∧ children j ≠ empty) :
    reduce children = full children := by
  obtain ⟨i, j, hij, hi, hj⟩ := h
  refine dif_neg ?_
  rintro ⟨pos, hpos⟩
  exact hij (((hpos i).mp hi).trans ((hpos j).mp hj).symm)

theorem unique_or_two (h : ∃ i, children i ≠ empty) :
    (∃ pos, ∀ i, children i ≠ empty ↔ i = pos) ∨ ∃ i j, i ≠ j ∧ children i ≠ empty ∧ children j ≠ empty := by
  obtain ⟨i, hi⟩ := h
  by_cases hj : ∃ j, i ≠ j ∧ children j ≠ empty
  · obtain ⟨j, hij, hj⟩ := hj
    exact .inr ⟨i, j, hij, hi, hj⟩
  · refine .inl ⟨i, fun j => ⟨fun hne => ?_, fun heq => heq ▸ hi⟩⟩
    by_contra hji
    exact hj ⟨j, fun h => hji h.symm, hne⟩

theorem lookup_reduce (children : α → Tree α V) : (reduce children).lookup = (full children).lookup := by
  by_cases h : ∃ pos, ∀ i, children i ≠ empty ↔ i = pos
  · obtain ⟨pos, hpos⟩ := h
    rw [reduce_of_unique hpos, lookup_join]
    funext path
    cases path with
    | nil => rfl
    | cons i path =>
      rw [lookup_full_cons]
      by_cases hi : i = pos
      · subst hi
        exact under_append [i] _ path
      · rw [under_of_not _ fun hp => hi (cons_prefix_cons.mp hp).1.symm]
        have hempty : children i = empty := by
          by_contra hne
          exact hi ((hpos i).mp hne)
        rw [hempty]
        rfl
  · rw [reduce, dif_neg h]

theorem normal_reduce (hslot : ∀ i, Slot stop i (children i))
    (h : ∃ i, children i ≠ empty) : Normal stop (reduce children) := by
  obtain ⟨pos, hpos⟩ | htwo := unique_or_two h
  · rw [reduce_of_unique hpos]
    obtain hempty | ⟨rfl, v, hv⟩ | ⟨hne, hnormal⟩ := hslot pos
    · exact absurd hempty ((hpos pos).mpr rfl)
    · rw [hv]
      exact .leaf (ends_singleton pos)
    · refine normal_join (cons_ne_nil pos []) ?_ hnormal
      exact fun hmem => hne (mem_singleton.mp hmem).symm
  · rw [reduce_of_two htwo]
    exact normal_full hslot htwo

theorem erase_short_append (hkey : key ≠ []) (t : Tree α V) :
    erase (short path t) (path ++ key) = join path (erase t key) := by
  have hne : path ≠ path ++ key := by
    intro h
    exact hkey (append_right_eq_self.mp h.symm)
  rw [erase, if_pos (prefix_append path key), if_neg hne, drop_left]

theorem lookup_erase_value (w : V) : (erase (value w) [] : Tree α V).lookup = update (value w).lookup [] none := by
  calc (empty : Tree α V).lookup
      _ = update (empty : Tree α V).lookup [] none := (update_eq_self [] _).symm
      _ = update (update (fun _ => none) [] (some w)) [] none := (update_idem ..).symm
      _ = update (value w).lookup [] none := rfl

theorem lookup_erase_missing (h : ¬ path <+: key) :
    (erase (short path t) key).lookup = update (short path t).lookup key none := by
  rw [erase, if_neg h]
  have hnone : (short path t).lookup key = none := under_of_not _ h
  rw [← hnone, update_eq_self]

theorem lookup_erase_of_walk (h : Walk stop t key) : (erase t key).lookup = update t.lookup key none := by
  induction h with
  | missing _ _ hp => exact lookup_erase_missing hp
  | @leaf path w hpath =>
    rw [erase, if_pos (prefix_refl path), if_pos rfl]
    calc (empty : Tree α V).lookup
        _ = under path (erase (value w : Tree α V) []).lookup := (under_none path).symm
        _ = update (short path (value w)).lookup path none := by
            rw [lookup_erase_value, lookup_leaf_update]
  | extension _ _ _ hkey _ ih =>
    rw [erase_short_append hkey.ne_nil, lookup_join, ih, under_update]
    rfl
  | empty key => exact (update_eq_self key _).symm
  | value w => exact lookup_erase_value w
  | branch _ _ _ ih =>
    rw [erase, lookup_reduce]
    exact lookup_full_update ih

theorem Normal.lookup_erase (h : Normal stop t) (hkey : Ends stop key) :
    (erase t key).lookup = update t.lookup key none := lookup_erase_of_walk (walk (.inr h) hkey)

theorem exists_ne_empty_update (h : ∃ i j, i ≠ j ∧ children i ≠ empty ∧ children j ≠ empty) (i : α) :
    ∃ j, update children i t j ≠ empty := by
  obtain ⟨a, b, hab, ha, hb⟩ := h
  by_cases hai : a = i
  · refine ⟨b, ?_⟩
    rw [update_of_ne fun hbi => hab (hai.trans hbi.symm)]
    exact hb
  · refine ⟨a, ?_⟩
    rw [update_of_ne hai]
    exact ha

theorem slot_erase (h : Normal stop (full children)) (hkey : Ends stop (i :: key))
    (hbelow : Normal stop (children i) → Ends stop key →
      (children i).erase key = empty ∨ Normal stop ((children i).erase key)) :
    Slot stop i ((children i).erase key) := by
  obtain hempty | ⟨rfl, w, hw⟩ | ⟨hi, hnormal⟩ := child_cases h i
  · rw [hempty]
    exact .inl rfl
  · rw [hw]
    exact .inl rfl
  · obtain ⟨hi', -⟩ | ⟨-, hrest⟩ := ends_cons hkey
    · exact absurd hi' hi
    · exact (hbelow hnormal hrest).imp_right fun hbelow => .inr ⟨hi, hbelow⟩

theorem Normal.erase (h : Normal stop t) (hkey : Ends stop key) :
    (t.erase key = empty ∧ ∃ path v, t = short path (value v)) ∨ Normal stop (t.erase key) := by
  induction walk (.inr h) hkey with
  | missing _ _ hp =>
    rw [Tree.erase, if_neg hp]
    exact .inr h
  | @leaf path w _ =>
    rw [Tree.erase, if_pos (prefix_refl path), if_pos rfl]
    exact .inl ⟨rfl, path, w, rfl⟩
  | extension hne hpath hchild hrest _ ih =>
    rw [erase_short_append hrest.ne_nil]
    obtain ⟨-, path', v, hv⟩ | hbelow := ih hchild hrest
    · cases hv
    · exact .inr (normal_join hne hpath hbelow)
  | empty key => exact absurd rfl h.ne_empty
  | value w => cases h
  | @branch children i key _ _ below ih =>
    have hslot : Slot stop i ((children i).erase key) :=
      slot_erase h hkey fun hnormal hrest => (ih hnormal hrest).imp_left And.left
    exact .inr (normal_reduce (slot_update (child_cases h) hslot) (exists_ne_empty_update h.two i))

end Lookup

end Patricia
