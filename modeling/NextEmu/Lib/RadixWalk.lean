import Mathlib.Algebra.Order.Ring.Int

/-!
# Radix translation

A radix tree maps keys to leaves. Each table is an array of entries; at each level
some digits of the key select an entry, which is a leaf, a pointer to the table of
the next level, or invalid. Leaves may sit at any level, so a leaf covers all keys
that share the digits above it: the leaves partition the keys into blocks of
several sizes.

Reading an entry may fail, and may change what is behind it, so a walk carries the
state it reads from and lists what it read.
-/

namespace NextEmu.Lib.RadixWalk

/-- What an entry is. -/
inductive Kind (α : Type)
  | leaf
  | dir (table : α)
  | invalid

/-- A radix tree over the state `σ`, with tables at addresses `α`, keys `κ` and entries `ν`. -/
structure Scheme (σ α κ ν : Type) where
  read : σ → α → Option ν × σ
  slot : Nat → α → κ → α
  kind : ν → Kind α

inductive Result (ν : Type)
  | unreadable
  | fault
  | leaf (level : Nat) (entry : ν)
  deriving DecidableEq

/-- Whatever leaf the walk ended in satisfies `p`. -/
def Result.Leaf {ν : Type} (p : ν → Prop) (r : Result ν) : Prop := ∀ l e, r = .leaf l e → p e

instance {ν : Type} (p : ν → Prop) [DecidablePred p] (r : Result ν) : Decidable (r.Leaf p) :=
  match r with
  | .unreadable => .isTrue nofun
  | .fault => .isTrue nofun
  | .leaf l e =>
    decidable_of_iff (p e) ⟨fun h _ _ he => (Result.leaf.inj he).2 ▸ h, fun h => h l e rfl⟩

/-- How a walk ended, the state behind it, and what it asked for and got, in order. -/
structure Walked (σ α ν : Type) where
  result : Result ν
  state : σ
  reads : List (α × Option ν)

variable {σ α κ ν : Type}

/-- The same end, after one more read at the front. -/
def Walked.after (r : α × Option ν) (w : Walked σ α ν) : Walked σ α ν :=
  { w with reads := r :: w.reads }

/-- One level of a walk; `below` is the walk from the table that the entry points to. -/
def visit (S : Scheme σ α κ ν) (level : Nat) (table : α) (k : κ) (s : σ)
    (below : α → σ → Walked σ α ν) : Walked σ α ν :=
  let (entry, s') := S.read s (S.slot level table k)
  Walked.after (S.slot level table k, entry)
    (match entry.map (fun e => (e, S.kind e)) with
      | none => ⟨.unreadable, s', []⟩
      | some (e, .leaf) => ⟨.leaf level e, s', []⟩
      | some (_, .dir next) => below next s'
      | some (_, .invalid) => ⟨.fault, s', []⟩)

/-- The walk for `k` from a table at `level`. A pointer at level 0, the last one, is a fault. -/
def walk (S : Scheme σ α κ ν) : (level : Nat) → (table : α) → (k : κ) → σ → Walked σ α ν
  | 0, table, k, s => visit S 0 table k s (fun _ s' => ⟨.fault, s', []⟩)
  | level + 1, table, k, s =>
    visit S (level + 1) table k s (fun next s' => walk S level next k s')

/-- Two keys that select the same entries from the level `top` down to `level`. -/
def SameBlock (S : Scheme σ α κ ν) (top level : Nat) (k k' : κ) : Prop :=
  ∀ l, level ≤ l → l ≤ top → ∀ t, S.slot l t k = S.slot l t k'

/-- The same tree read from a fixed map. -/
def Scheme.ofMap (S : Scheme σ α κ ν) (m : α → ν) : Scheme Unit α κ ν where
  read _ a := (some (m a), ())
  slot := S.slot
  kind := S.kind

/-- The walk over a fixed map, which cannot fail to read. -/
def lookup (S : Scheme σ α κ ν) (m : α → ν) (top : Nat) (root : α) (k : κ) : Result ν :=
  (walk (S.ofMap m) top root k ()).result

/-- The walk could read all that it asked for, and found what the map holds. -/
def Agrees (m : α → ν) (w : Walked σ α ν) : Prop := ∀ r ∈ w.reads, r.2 = some (m r.1)

instance [DecidableEq ν] (m : α → ν) (w : Walked σ α ν) : Decidable (Agrees m w) :=
  inferInstanceAs (Decidable (∀ r ∈ w.reads, r.2 = some (m r.1)))

variable {S : Scheme σ α κ ν}

theorem SameBlock.symm {top level : Nat} {k k' : κ} (h : SameBlock S top level k k') :
    SameBlock S top level k' k := fun l hl ht t => (h l hl ht t).symm

theorem SameBlock.below {top level : Nat} {k k' : κ} (h : SameBlock S (top + 1) level k k') :
    SameBlock S top level k k' := fun l hl ht t => h l hl (Nat.le_succ_of_le ht) t

section Visit

variable {n m : Nat} {t : α} {k : κ} {s : σ} {e : ν} {below : α → σ → Walked σ α ν}

/-- A level ends in a leaf when its own entry is one, or the walk below ends so. -/
theorem visit_leaf (h : (visit S n t k s below).result = .leaf m e) :
    m = n ∧ S.kind e = .leaf ∨ ∃ next s', (below next s').result = .leaf m e := by
  unfold visit Walked.after at h
  dsimp only at h
  split at h
  · cases h
  · rename_i e' heq
    cases h
    obtain ⟨e'', -, hpair⟩ := Option.map_eq_some_iff.mp heq
    injection hpair with h1 h2
    exact .inl ⟨rfl, h1 ▸ h2⟩
  · exact .inr ⟨_, _, h⟩
  · cases h

/-- A level that ends in a leaf looks at the key only through its slot and the walk below. -/
theorem visit_congr {k' : κ} {below' : α → σ → Walked σ α ν}
    (h : (visit S n t k s below).result = .leaf m e) (hs : S.slot n t k' = S.slot n t k)
    (hb : ∀ next s', (below next s').result = .leaf m e → below' next s' = below next s') :
    visit S n t k' s below' = visit S n t k s below := by
  unfold visit Walked.after at h ⊢
  rw [hs]
  dsimp only at h ⊢
  split at h
  · rfl
  · rfl
  · rw [hb _ _ h]
  · rfl

theorem visit_readable (hr : (S.read s (S.slot n t k)).1 ≠ none)
    (hb : ∀ next s', (below next s').result ≠ .unreadable) :
    (visit S n t k s below).result ≠ .unreadable := by
  unfold visit Walked.after
  dsimp only
  split
  · rename_i h
    exact absurd (Option.map_eq_none_iff.mp h) hr
  · exact nofun
  · exact hb _ _
  · exact nofun

end Visit

theorem walk_leaf_level {e : ν} {m : Nat} {k : κ} :
    ∀ {n : Nat} {t : α} {s : σ}, (walk S n t k s).result = .leaf m e → m ≤ n := by
  intro n
  induction n with
  | zero =>
    intro t s h
    rcases visit_leaf h with ⟨h0, -⟩ | ⟨_, _, h0⟩
    · omega
    · cases h0
  | succ n ih =>
    intro t s h
    rcases visit_leaf h with ⟨h0, -⟩ | ⟨_, _, h0⟩
    · omega
    · exact Nat.le_succ_of_le (ih h0)

theorem walk_leaf_kind {e : ν} {m : Nat} {k : κ} :
    ∀ {n : Nat} {t : α} {s : σ}, (walk S n t k s).result = .leaf m e → S.kind e = .leaf := by
  intro n
  induction n with
  | zero =>
    intro t s h
    rcases visit_leaf h with ⟨-, hk⟩ | ⟨_, _, h0⟩
    · exact hk
    · cases h0
  | succ n ih =>
    intro t s h
    rcases visit_leaf h with ⟨-, hk⟩ | ⟨_, _, h0⟩
    · exact hk
    · exact ih h0

/-- The blocks: a walk that ends in a leaf is the same for every key of the block. -/
theorem walk_sameBlock {e : ν} {m : Nat} {k k' : κ} :
    ∀ {n : Nat} {t : α} {s : σ}, (walk S n t k s).result = .leaf m e →
      SameBlock S n m k k' → walk S n t k' s = walk S n t k s := by
  intro n
  induction n with
  | zero =>
    intro t s h hb
    exact visit_congr h (hb 0 (walk_leaf_level h) (Nat.le_refl _) t).symm (fun _ _ _ => rfl)
  | succ n ih =>
    intro t s h hb
    exact visit_congr h (hb (n + 1) (walk_leaf_level h) (Nat.le_refl _) t).symm
      (fun _ _ h' => ih h' hb.below)

theorem lookup_sameBlock {m : α → ν} {e : ν} {l : Nat} {k k' : κ} {n : Nat} {t : α}
    (h : lookup S m n t k = .leaf l e) (hb : SameBlock S n l k k') :
    lookup S m n t k' = .leaf l e := by
  unfold lookup at h ⊢
  rw [walk_sameBlock h hb, h]

/-- A fixed map can always be read. -/
theorem lookup_readable {m : α → ν} {k : κ} : ∀ {n : Nat} {t : α},
    lookup S m n t k ≠ .unreadable := by
  intro n
  induction n with
  | zero => exact visit_readable nofun (fun _ _ => nofun)
  | succ n ih => exact visit_readable nofun (fun _ _ => ih)

/-- One level over a map ends as the level over the state whose reads it agrees with. -/
theorem visit_agrees {m : α → ν} {n : Nat} {t : α} {k : κ} {s : σ}
    {below : α → σ → Walked σ α ν} {below' : α → Unit → Walked Unit α ν}
    (h : Agrees m (visit S n t k s below))
    (hb : ∀ next s', Agrees m (below next s') → (below next s').result = (below' next ()).result) :
    (visit S n t k s below).result = (visit (S.ofMap m) n t k () below').result := by
  unfold visit at h ⊢
  simp only [Scheme.ofMap]
  rcases hr : S.read s (S.slot n t k) with ⟨entry, s'⟩
  simp only [hr] at h ⊢
  have he : entry = some (m (S.slot n t k)) := h _ List.mem_cons_self
  subst he
  simp only [Walked.after, Option.map_some] at h ⊢
  cases hk : S.kind (m (S.slot n t k)) with
  | leaf => rfl
  | invalid => rfl
  | dir next =>
    simp only [hk] at h ⊢
    exact hb next s' (fun r hr' => h r (List.mem_cons_of_mem _ hr'))

/-- A walk whose reads all agree with a map ends as the walk over the map does. -/
theorem walk_eq_lookup {m : α → ν} {k : κ} : ∀ {n : Nat} {t : α} {s : σ},
    Agrees m (walk S n t k s) → (walk S n t k s).result = lookup S m n t k := by
  intro n
  induction n with
  | zero => exact fun h => visit_agrees h (fun _ _ _ => rfl)
  | succ n ih => exact fun h => visit_agrees h (fun _ _ h' => ih h')

/-- A level over a state that has what the level over a map reads. -/
theorem visit_reads {m : α → ν} {n : Nat} {t : α} {k : κ} {s : σ}
    {below : α → σ → Walked σ α ν} {below' : α → Unit → Walked Unit α ν}
    (h : ∀ r ∈ (visit (S.ofMap m) n t k () below').reads, S.read s r.1 = (some (m r.1), s))
    (hb : ∀ next, (∀ r ∈ (below' next ()).reads, S.read s r.1 = (some (m r.1), s)) →
      Agrees m (below next s)) :
    Agrees m (visit S n t k s below) := by
  have hread : S.read s (S.slot n t k) = (some (m (S.slot n t k)), s) := h _ List.mem_cons_self
  unfold visit Agrees at *
  simp only [Scheme.ofMap, Walked.after, hread, Option.map_some, List.mem_cons,
    forall_eq_or_imp] at h ⊢
  refine ⟨trivial, ?_⟩
  cases hk : S.kind (m (S.slot n t k)) with
  | leaf => exact fun r hr => absurd hr List.not_mem_nil
  | invalid => exact fun r hr => absurd hr List.not_mem_nil
  | dir next =>
    simp only [hk] at h
    exact hb next h.2

/-- A walk agrees with a map where the state has what the walk over the map reads. -/
theorem agrees_of_reads {m : α → ν} {k : κ} {s : σ} : ∀ {n : Nat} {t : α},
    (∀ r ∈ (walk (S.ofMap m) n t k ()).reads, S.read s r.1 = (some (m r.1), s)) →
      Agrees m (walk S n t k s) := by
  intro n
  induction n with
  | zero => exact fun h => visit_reads h fun _ _ _ hr => absurd hr List.not_mem_nil
  | succ n ih => exact fun h => visit_reads h fun _ h' => ih h'

/-- A level leaves the state that its reads leave. -/
theorem visit_state {read : σ → α → σ} (hread : ∀ s a, (S.read s a).2 = read s a) {n : Nat} {t : α}
    {k : κ} {s : σ} {below : α → σ → Walked σ α ν}
    (hb : ∀ next s', (below next s').state = ((below next s').reads.map Prod.fst).foldl read s') :
    (visit S n t k s below).state =
      ((visit S n t k s below).reads.map Prod.fst).foldl read s := by
  unfold visit Walked.after
  dsimp only
  rw [List.map_cons, List.foldl_cons, ← hread]
  split
  · rfl
  · rfl
  · exact hb _ _
  · rfl

/-- A walk does to the state what its reads do, and no more. -/
theorem walk_state {read : σ → α → σ} (hread : ∀ s a, (S.read s a).2 = read s a) {k : κ} :
    ∀ {n : Nat} {t : α} {s : σ},
      (walk S n t k s).state = ((walk S n t k s).reads.map Prod.fst).foldl read s := by
  intro n
  induction n with
  | zero => exact visit_state hread fun _ _ => rfl
  | succ n ih => exact visit_state hread fun _ _ => ih

theorem visit_reads_length {n m : Nat} {t : α} {k : κ} {s : σ} {below : α → σ → Walked σ α ν}
    (hb : ∀ next s', (below next s').reads.length ≤ m) :
    (visit S n t k s below).reads.length ≤ m + 1 := by
  unfold visit Walked.after
  rw [List.length_cons]
  refine Nat.succ_le_succ ?_
  split
  · exact Nat.zero_le m
  · exact Nat.zero_le m
  · exact hb _ _
  · exact Nat.zero_le m

/-- A walk reads one entry at each level at most. -/
theorem walk_reads_length {k : κ} : ∀ {n : Nat} {t : α} {s : σ},
    (walk S n t k s).reads.length ≤ n + 1 := by
  intro n
  induction n with
  | zero => exact visit_reads_length fun _ _ => Nat.le_refl 0
  | succ n ih => exact visit_reads_length fun _ _ => ih

end NextEmu.Lib.RadixWalk
