/-
The runtime's keys, hashes and equality compute what they are meant to.

Design.  `within n M F` is partial correctness of the runtime with at most `n` levels left:
a program that returns meets its postcondition and has left the limits of the context as they
were, and one that stops does so by a fault of `F`.  Of data, nothing but a budget of the
context runs out (`Budget`): no access is out of bounds, and nothing is refused for its size.

`level_meets` is the one induction, on the levels left: equality goes through the index of a
map, which goes through equality and hashes one level down.
-/
import Wax.Wisp.Same

namespace Wax.Wisp.Rt

open PersistentHashMap Entries

/-- Fuel, memory or depth has run out. -/
def Budget (f : Fault) : Prop := f = .fuel ∨ f = .allocation ∨ f = .depth

/-- With at most `n` levels left and the limit `M` of size: what is returned, and which faults
there may be. -/
def Within (n : ℕ) (M : ℤ) (F : Fault → Prop) {α : Type} (x : Run α) (Q : α → Prop) : Prop :=
  ∀ c : Context, c.maxSize = M → c.maxDepth - c.depth ≤ n →
    match x c with
    | .ok (a, c') => Q a ∧ c'.maxSize = M ∧ c'.maxDepth = c.maxDepth ∧ c'.depth = c.depth
    | .error f => F f

theorem Within.bind {n : ℕ} {M : ℤ} {F : Fault → Prop} {α β : Type} {x : Run α} {f : α → Run β}
    {Q : α → Prop} {Q' : β → Prop} (hx : Within n M F x Q) (hf : ∀ a, Q a → Within n M F (f a) Q') :
    Within n M F (x >>= f) Q' := by
  intro c hM hn
  have h := hx c hM hn
  show match (x c).bind fun r => f r.1 r.2 with
    | .ok (a, c') => Q' a ∧ c'.maxSize = M ∧ c'.maxDepth = c.maxDepth ∧ c'.depth = c.depth
    | .error f => F f
  cases hr : x c with
  | error e =>
    rw [hr] at h
    exact h
  | ok r =>
    obtain ⟨a, c'⟩ := r
    rw [hr] at h
    obtain ⟨hq, hsize, hmax, hdepth⟩ := h
    have h' := hf a hq c' hsize (by rw [hmax, hdepth]; exact hn)
    rw [hmax, hdepth] at h'
    exact h'

theorem within_pure {n : ℕ} {M : ℤ} {F : Fault → Prop} {α : Type} {a : α} {Q : α → Prop}
    (hq : Q a) : Within n M F (pure a) Q := fun _ hM _ => ⟨hq, hM, rfl, rfl⟩

def within (n : ℕ) (M : ℤ) (F : Fault → Prop) : Judgement Run where
  meets := Within n M F
  pure := within_pure
  bind := Within.bind
  mono := by
    intro α x Q Q' hx hqq c hM hn
    have h := hx c hM hn
    revert h
    cases x c with
    | error e => exact id
    | ok r => exact fun h => ⟨hqq _ h.1, h.2⟩

variable {n : ℕ} {M : ℤ} {F : Fault → Prop} {arity : List UInt8 → ℕ} {α : Type}

theorem Within.faults {G : Fault → Prop} {x : Run α} {Q : α → Prop} (hx : Within n M F x Q)
    (hFG : ∀ f, F f → G f) : Within n M G x Q := by
  intro c hM hn
  have h := hx c hM hn
  revert h
  cases x c with
  | error e => exact hFG e
  | ok r => exact id

theorem within_die {f : Fault} (hf : F f) {Q : α → Prop} : Within n M F (die f : Run α) Q :=
  fun _ _ _ => hf

/-- Reading the context. -/
theorem within_get {Q : Context → Prop} (hq : ∀ c : Context, c.maxSize = M → Q c) :
    Within n M F (get : Run Context) Q := fun c hM _ => ⟨hq c hM, hM, rfl, rfl⟩

/-! ### The context -/

theorem within_tick (cost : ℤ) : Within n M Budget (tick cost) fun _ => True := by
  intro c hM hn
  by_cases hlt : cost < 0 ∨ c.fuel < cost
  · have hrun : tick cost c = .error .fuel := by
      show (if cost < 0 ∨ c.fuel < cost then die .fuel else _ : Run Unit) c = _
      rw [if_pos hlt]
      rfl
    rw [hrun]
    exact Or.inl rfl
  · have hrun : tick cost c = .ok ((), { c with fuel := c.fuel - cost }) := by
      show (if cost < 0 ∨ c.fuel < cost then _ else _ : Run Unit) c = _
      rw [if_neg hlt]
      rfl
    rw [hrun]
    exact ⟨trivial, hM, rfl, rfl⟩

/-- Paying from the allocation, and then in fuel. -/
theorem within_pay (cost fuel : ℤ) : Within n M Budget (reserve cost fuel) fun _ => True := by
  intro c hM hn
  by_cases hlt : c.allocation < cost
  · have hrun : reserve cost fuel c = .error .allocation := by
      show (if c.allocation < cost then die .allocation else _ : Run Unit) c = _
      rw [if_pos hlt]
      rfl
    rw [hrun]
    exact Or.inr (Or.inl rfl)
  · have hrun : reserve cost fuel c
        = tick fuel { c with allocation := c.allocation - cost } := by
      show (if c.allocation < cost then _ else _ : Run Unit) c = _
      rw [if_neg hlt]
      rfl
    rw [hrun]
    exact within_tick fuel { c with allocation := c.allocation - cost } hM hn

theorem within_allocate {count w : ℤ} (hlo : 0 ≤ count) (hhi : count ≤ M) :
    Within n M Budget (allocate count w) fun _ => True := by
  intro c hM hn
  have hrun : allocate count w c = reserve (count * w + 32) (count + 1) c := by
    show (if count < 0 ∨ c.maxSize < count then _ else _ : Run Unit) c = _
    rw [if_neg (by omega)]
    rfl
  rw [hrun]
  exact within_pay _ _ c hM hn

theorem within_reserveVector : Within n M Budget reserveVector fun _ => True :=
  within_pay _ _

theorem within_reserveMap (count : ℤ) : Within n M Budget (reserveMap count) fun _ => True :=
  within_pay _ _

/-- A level is entered and left. -/
theorem within_enclosed {x : Run α} {Q : α → Prop} (hx : Within n M Budget x Q) :
    Within (n + 1) M Budget (do enter; let a ← x; leave; pure a) Q := by
  intro c hM hn
  have hpay := within_tick (n := n + 1) 1 c hM hn
  cases ht : tick 1 c with
  | error f =>
    have hrun : (do enter; let a ← x; leave; pure a : Run α) c = .error f := by
      show ((tick 1 c).bind fun _ => _).bind _ = _
      rw [ht]
      rfl
    rw [hrun]
    rw [ht] at hpay
    exact hpay
  | ok r =>
    obtain ⟨u, c'⟩ := r
    rw [ht] at hpay
    obtain ⟨-, hsize, hmax, hdepth⟩ := hpay
    by_cases hfull : c'.maxDepth ≤ c'.depth
    · have hrun : (do enter; let a ← x; leave; pure a : Run α) c = .error .depth := by
        show ((tick 1 c).bind fun r => (if r.2.maxDepth ≤ r.2.depth then die .depth
          else set { r.2 with depth := r.2.depth + 1 } : Run Unit) r.2).bind _ = _
        rw [ht]
        show ((if c'.maxDepth ≤ c'.depth then _ else _ : Run Unit) c').bind _ = _
        rw [if_pos hfull]
        rfl
      rw [hrun]
      exact Or.inr (Or.inr rfl)
    · have hrun : (do enter; let a ← x; leave; pure a : Run α) c
          = (x { c' with depth := c'.depth + 1 }).bind fun r =>
              .ok (r.1, { r.2 with depth := r.2.depth - 1 }) := by
        show ((tick 1 c).bind fun r => (if r.2.maxDepth ≤ r.2.depth then die .depth
          else set { r.2 with depth := r.2.depth + 1 } : Run Unit) r.2).bind _ = _
        rw [ht]
        show ((if c'.maxDepth ≤ c'.depth then _ else _ : Run Unit) c').bind _ = _
        rw [if_neg hfull]
        rfl
      rw [hrun]
      have h := hx { c' with depth := c'.depth + 1 } hsize (by
        show c'.maxDepth - (c'.depth + 1) ≤ (n : ℤ)
        rw [hmax, hdepth]
        push_cast at hn
        omega)
      revert h
      cases x { c' with depth := c'.depth + 1 } with
      | error f => exact id
      | ok r =>
        rintro ⟨hq, hs, hm, hd⟩
        refine ⟨hq, hs, hm.trans hmax, ?_⟩
        show r.2.depth - 1 = c.depth
        rw [hd]
        show c'.depth + 1 - 1 = c.depth
        omega

/-- With no level left, none is entered. -/
theorem within_refused {Q : α → Prop} :
    Within 0 M Budget (do enter; die .tooDeep : Run α) Q := by
  intro c hM hn
  have hpay := within_tick (n := 0) 1 c hM hn
  cases ht : tick 1 c with
  | error f =>
    have hrun : (do enter; die .tooDeep : Run α) c = .error f := by
      show ((tick 1 c).bind fun _ => _).bind _ = _
      rw [ht]
      rfl
    rw [hrun]
    rw [ht] at hpay
    exact hpay
  | ok r =>
    obtain ⟨u, c'⟩ := r
    rw [ht] at hpay
    obtain ⟨-, hsize, hmax, hdepth⟩ := hpay
    have hrun : (do enter; die .tooDeep : Run α) c = .error .depth := by
      show ((tick 1 c).bind fun r => (if r.2.maxDepth ≤ r.2.depth then die .depth
        else set { r.2 with depth := r.2.depth + 1 } : Run Unit) r.2).bind _ = _
      rw [ht]
      show ((if c'.maxDepth ≤ c'.depth then _ else _ : Run Unit) c').bind _ = _
      rw [if_pos (by rw [hmax, hdepth]; push_cast at hn; omega)]
      rfl
    rw [hrun]
    exact Or.inr (Or.inr rfl)

/-! ### Listing the values of a map -/

/-- What the entries of a map or a set are listed as. -/
def listed (isSet : Bool) (es : List (Value × Value)) : List Value :=
  es.flatMap fun e => if isSet then [e.1] else [e.1, e.2]

theorem length_listed (isSet : Bool) (es : List (Value × Value)) :
    (listed isSet es).length = es.length * width isSet := by
  induction es with
  | nil => simp [listed]
  | cons e es ih =>
    rw [listed] at ih ⊢
    rw [List.flatMap_cons, List.length_append, ih, List.length_cons, Nat.succ_mul, Nat.add_comm]
    cases isSet <;> rfl

theorem listed_cons (isSet : Bool) (e : Value × Value) (es : List (Value × Value)) :
    listed isSet (e :: es) = (if isSet then [e.1] else [e.1, e.2]) ++ listed isSet es :=
  List.flatMap_cons

theorem setAt_ok {a : List Value} {i : ℕ} (v : Value) (hi : i < a.length) :
    setAt a i v = (pure (a.set i v) : Run (List Value)) := by
  rw [setAt, if_pos hi]

theorem take_set_succ {a : List Value} {i : ℕ} (v : Value) (hi : i < a.length) :
    (a.set i v).take (i + 1) = a.take i ++ [v] := by
  rw [List.take_succ_eq_append_getElem (by simpa using hi), List.take_set_of_le le_rfl,
    List.getElem_set_self]

theorem within_fill (isSet : Bool) (entries : List (Option (Value × Value))) :
    ∀ (out : List Value) (i : ℕ), i + (listed isSet entries.reduceOption).length = out.length →
      Within n M Budget (fill isSet entries out i)
        (· = out.take i ++ listed isSet entries.reduceOption) := by
  induction entries with
  | nil =>
    intro out i hlen
    refine within_pure ?_
    have hi : i = out.length := hlen
    rw [hi, List.take_length]
    exact (List.append_nil out).symm
  | cons o entries ih =>
    intro out i hlen
    cases o with
    | none =>
      rw [List.reduceOption_cons_of_none] at hlen ⊢
      exact (within_tick 8).bind fun _ _ => ih out i hlen
    | some e =>
      rw [List.reduceOption_cons_of_some, listed_cons] at hlen ⊢
      rw [fill]
      refine (within_tick 8).bind fun _ _ => ?_
      cases isSet with
      | true =>
        simp only [if_true, List.cons_append, List.nil_append, List.length_cons] at hlen ⊢
        have hi : i < out.length := by omega
        rw [setAt_ok e.1 hi, pure_bind, pure_bind]
        refine (within n M Budget).mono (ih _ (i + 1) (by rw [List.length_set]; omega))
          fun a ha => ?_
        rw [ha, take_set_succ _ hi, List.append_assoc]
        rfl
      | false =>
        simp only [Bool.false_eq_true, if_false, List.cons_append, List.nil_append,
          List.length_cons] at hlen ⊢
        have hi : i < out.length := by omega
        have hi' : i + 1 < (out.set i e.1).length := by
          rw [List.length_set]
          omega
        rw [setAt_ok e.1 hi, pure_bind, setAt_ok e.2 hi', pure_bind]
        refine (within n M Budget).mono
          (ih _ (i + 2) (by rw [List.length_set, List.length_set]; omega)) fun a ha => ?_
        rw [ha, take_set_succ _ hi', take_set_succ _ hi, List.append_assoc, List.append_assoc]
        rfl

theorem within_valuesNew {k : ℤ} (hlo : 0 ≤ k) (hhi : k ≤ M) :
    Within n M Budget (valuesNew k) (· = List.replicate k.toNat .nil) :=
  (within_allocate hlo hhi).bind fun _ _ => within_pure rfl

theorem within_seqValues_map {isSet : Bool} {index : Map Value Value}
    {entries : List (Option (Value × Value))} (hinv : MapInv M isSet index entries) :
    Within n M Budget (seqValues (.map isSet index entries))
      (· = listed isSet entries.reduceOption) := by
  have hcount : count index * width isSet = ((listed isSet entries.reduceOption).length : ℤ) := by
    rw [hinv.count_eq, length_listed]
    push_cast
    rfl
  have hfits : ((listed isSet entries.reduceOption).length : ℤ) ≤ M := by
    rw [← hcount, hinv.count_eq]
    exact hinv.fits
  rw [seqValues, hcount]
  refine (within_valuesNew (Int.natCast_nonneg _) hfits).bind fun out hout => ?_
  rw [hout, Int.toNat_natCast]
  refine (within n M Budget).mono (within_fill isSet entries _ 0 ?_) fun a ha => ?_
  · rw [Nat.zero_add, List.length_replicate]
  · rw [ha, List.take_zero, List.nil_append]

/-- The elements of a sequence, of whichever representation. -/
theorem within_seqValues {v : Value} {xs : List Value} (hv : v = .list xs ∨ v = .vector xs)
    (hd : Data M arity v) : Within n M Budget (seqValues v) (· = xs) := by
  rcases hv with rfl | rfl
  · exact within_pure rfl
  · cases hd with | vector hlen hxs =>
    exact (within_valuesNew (Int.natCast_nonneg _) hlen).bind fun _ _ => within_pure rfl

/-! ### The levels -/

/-- What the functions of a level meet. -/
structure LevelMeets (n : ℕ) (M : ℤ) (arity : List UInt8 → ℕ) (l : Level) : Prop where
  key : ∀ v, Data M arity v → Within n M Budget (l.key v) fun _ => True
  hash : ∀ v, Data M arity v → Within n M Budget (l.hash v) (· = hashOf v)
  equal : ∀ a b, Data M arity a → Data M arity b →
    Within n M Budget (l.equal a b) fun r => r = true ↔ Same a b

variable {l : Level}

theorem LevelMeets.calls (hl : LevelMeets n M arity l) :
    Calls (within n M Budget) l.callbacks (Data M arity) hashOf Same :=
  ⟨hl.hash, hl.equal⟩

/-! ### Keys -/

theorem within_keyEach (hl : LevelMeets n M arity l) {vs : List Value}
    (hvs : ∀ v ∈ vs, Data M arity v) : Within n M Budget (keyEach l vs) fun _ => True := by
  induction vs with
  | nil => exact within_pure trivial
  | cons v vs ih =>
    refine (hl.key v (hvs v List.mem_cons_self)).bind fun _ _ => ?_
    exact ih fun w hw => hvs w (List.mem_cons_of_mem _ hw)

theorem data_listed {isSet : Bool} {es : List (Value × Value)} (hk : ∀ e ∈ es, Data M arity e.1)
    (hi : ∀ e ∈ es, Data M arity e.2) : ∀ v ∈ listed isSet es, Data M arity v := by
  intro v hv
  obtain ⟨e, he, hve⟩ := List.mem_flatMap.mp hv
  cases isSet with
  | true =>
    rw [if_pos rfl, List.mem_singleton] at hve
    rw [hve]
    exact hk e he
  | false =>
    rw [if_neg Bool.false_ne_true, List.mem_cons, List.mem_singleton] at hve
    rcases hve with rfl | rfl
    · exact hk e he
    · exact hi e he

theorem within_keyInner (hl : LevelMeets n M arity l) {v : Value} (hv : Data M arity v) :
    Within n M Budget (keyInner l v) fun _ => True := by
  cases hv with
  | nil => exact within_pure trivial
  | integer => exact within_pure trivial
  | floating => exact within_pure trivial
  | boolean => exact within_pure trivial
  | text => exact within_pure trivial
  | list hlen hxs =>
    refine (within_seqValues (Or.inl rfl) (.list hlen hxs)).bind fun a ha => ?_
    rw [ha]
    exact within_keyEach hl hxs
  | vector hlen hxs =>
    refine (within_seqValues (Or.inr rfl) (.vector hlen hxs)).bind fun a ha => ?_
    rw [ha]
    exact within_keyEach hl hxs
  | map hkeys hitems hinv =>
    refine (within_seqValues_map hinv).bind fun a ha => ?_
    rw [ha]
    exact within_keyEach hl (data_listed hkeys hitems)
  | record hlen hdata => exact within_keyEach hl hdata

/-! ### Hashes -/

theorem within_hashBytes (h : BitVec 32) (data : List UInt8) :
    Within n M Budget (hashBytes h data) (· = bytesHash h data) := by
  induction data generalizing h with
  | nil => exact within_pure rfl
  | cons b bs ih => exact (within_tick 1).bind fun _ _ => ih _

theorem within_hashSeq (hl : LevelMeets n M arity l) (h : BitVec 32) {vs : List Value}
    (hvs : ∀ v ∈ vs, Data M arity v) : Within n M Budget (hashSeq l h vs) (· = hashList h vs) := by
  induction vs generalizing h with
  | nil => exact within_pure rfl
  | cons v vs ih =>
    refine (hl.hash v (hvs v List.mem_cons_self)).bind fun x hx => ?_
    rw [hx]
    exact ih _ fun w hw => hvs w (List.mem_cons_of_mem _ hw)

theorem within_hashEntries (hl : LevelMeets n M arity l) (isSet : Bool) (h : BitVec 32)
    {es : List (Value × Value)} (hk : ∀ e ∈ es, Data M arity e.1)
    (hi : ∀ e ∈ es, Data M arity e.2) :
    Within n M Budget (hashEntries l isSet h (listed isSet es))
      (· = (es.map (entryHash isSet)).foldl (· + ·) h) := by
  induction es generalizing h with
  | nil => exact within_pure rfl
  | cons e es ih =>
    have hrest := fun h => ih h (fun e he => hk e (List.mem_cons_of_mem _ he))
      fun e he => hi e (List.mem_cons_of_mem _ he)
    rw [listed_cons, List.map_cons, List.foldl_cons]
    cases isSet with
    | true =>
      show Within n M Budget (hashEntries l true h (e.1 :: listed true es)) _
      rw [hashEntries]
      refine (hl.hash e.1 (hk e List.mem_cons_self)).bind fun kh hkh => ?_
      rw [hkh]
      exact hrest _
    | false =>
      show Within n M Budget (hashEntries l false h (e.1 :: e.2 :: listed false es)) _
      rw [hashEntries]
      refine (hl.hash e.1 (hk e List.mem_cons_self)).bind fun kh hkh => ?_
      refine (hl.hash e.2 (hi e List.mem_cons_self)).bind fun vh hvh => ?_
      rw [hkh, hvh]
      exact hrest _

theorem within_hashInner (hl : LevelMeets n M arity l) {v : Value} (hv : Data M arity v) :
    Within n M Budget (hashInner l v) (· = hashOf v) := by
  cases hv with
  | nil => exact within_pure (by rw [hashOf])
  | integer => exact within_pure (by rw [hashOf])
  | floating => exact within_pure (by rw [hashOf])
  | boolean => exact within_pure (by rw [hashOf])
  | text => rw [hashOf]; exact within_hashBytes _ _
  | list hlen hxs =>
    refine (within_seqValues (Or.inl rfl) (.list hlen hxs)).bind fun a ha => ?_
    rw [ha, hashOf]
    exact within_hashSeq hl _ hxs
  | vector hlen hxs =>
    refine (within_seqValues (Or.inr rfl) (.vector hlen hxs)).bind fun a ha => ?_
    rw [ha, hashOf]
    exact within_hashSeq hl _ hxs
  | map hkeys hitems hinv =>
    refine (within_seqValues_map hinv).bind fun a ha => ?_
    rw [ha, hashOf, hashLive_eq]
    exact within_hashEntries hl _ _ hkeys hitems
  | record hlen hdata =>
    refine (within_hashBytes _ _).bind fun h hh => ?_
    rw [hh, hashOf]
    exact within_hashSeq hl _ hdata

/-! ### Finding a key -/

/-- What the host lets the limit of size be. -/
def Limit (M : ℤ) : Prop := 1 ≤ M ∧ M ≤ 0x7fffffff

variable {isSet : Bool} {index : Map Value Value} {entries : List (Option (Value × Value))}
  {k : Value}

theorem mem_live {i : ℕ} {e : Value × Value} (he : entries[i]? = some (some e)) :
    e ∈ entries.reduceOption :=
  List.reduceOption_mem_iff.mpr (List.mem_of_getElem? he)

theorem MapInv.dataWf (hinv : MapInv M isSet index entries)
    (hkeys : ∀ e ∈ entries.reduceOption, Data M arity e.1) :
    MapWf (Data M arity) hashOf Same index :=
  hinv.wf.of_keys fun e he => by
    obtain ⟨i, item, -, hi⟩ := hinv.sound e he
    exact hkeys (e.1, item) (mem_live hi)

/-- The slot of a key, or a negative number if there is none. -/
def FoundAt (entries : List (Option (Value × Value))) (k : Value) (j : ℤ) : Prop :=
  (j = -1 ∧ Absent Same k entries.reduceOption) ∨
    ∃ (i : ℕ) (e : Value × Value), j = i ∧ entries[i]? = some (some e) ∧ Same e.1 k

theorem slot_toInt {i : ℕ} (hi : (i : ℤ) < 0x7fffffff) :
    ((BitVec.ofNat 64 i).setWidth 32).toInt = i := by
  rw [BitVec.setWidth_ofNat_of_le (by decide), BitVec.toInt_ofNat']
  exact Int.bmod_eq_of_le (by omega) (by omega)

theorem within_find (hM : Limit M) (hl : LevelMeets n M arity l)
    (hinv : MapInv M isSet index entries)
    (hkeys : ∀ e ∈ entries.reduceOption, Data M arity e.1) (hk : Data M arity k) :
    Within n M Budget (find l (.map isSet index entries) k) (FoundAt entries k) := by
  refine (hl.key k hk).bind fun _ _ => ?_
  refine (within_allocate (by decide) hM.1).bind fun _ _ => (within_tick 8).bind fun _ _ => ?_
  have hget := get_meets (J := within n M Budget) hl.calls hashOf_congr hk (hinv.dataWf hkeys)
  refine Within.bind hget fun r hr => ?_
  generalize hes : index.entries = es at hr
  cases hr with
  | found l₁ k₀ v l₂ hsame =>
    have hmem : (k₀, v) ∈ index.entries := by
      rw [hes]
      exact List.mem_append_right _ List.mem_cons_self
    obtain ⟨i, item, hv, hi⟩ := hinv.sound _ hmem
    have hslots := hinv.slots
    have hlt : i < entries.length := (List.getElem?_eq_some_iff.mp hi).1
    have hM' := hM.2
    obtain rfl : v = slotValue i := hv
    refine within_pure (Or.inr ⟨i, (k₀, item), ?_, hi, hsame⟩)
    exact slot_toInt (by omega)
  | absent habs =>
    refine within_pure (Or.inl ⟨rfl, fun e he => ?_⟩)
    obtain ⟨i, hi⟩ := List.getElem?_of_mem (List.reduceOption_mem_iff.mp he)
    have hmem := hinv.complete i e.1 e.2 hi
    rw [hes] at hmem
    exact habs (e.1, slotValue i) hmem

/-- No two live entries have the key. -/
theorem MapInv.entry_unique (hinv : MapInv M isSet index entries)
    (hkeys : ∀ e ∈ entries.reduceOption, Data M arity e.1) (hk : Data M arity k)
    {e e' : Value × Value} (he : e ∈ entries.reduceOption) (he' : e' ∈ entries.reduceOption)
    (h : Same e.1 k) (h' : Same e'.1 k) : e = e' :=
  hinv.apart.eq_of_same hkeys hk (fun _ _ ha hb => same_symm ha hb)
    (fun _ _ _ ha => same_trans ha _ _) he he' h h'

theorem within_entryAt {i : ℕ} {e : Value × Value} (he : entries[i]? = some (some e)) :
    Within n M Budget (entryAt entries i) (· = e) := by
  have hat : vectorAt entries (i : ℤ) = (pure (some e) : Run _) := by
    rw [vectorAt, if_neg (by omega), Int.toNat_natCast, slotAt, he]
  rw [entryAt, hat, pure_bind]
  exact within_pure rfl

/-- What `get` answers for a map. -/
theorem within_mapGet (hM : Limit M) (hl : LevelMeets n M arity l)
    (hinv : MapInv M isSet index entries)
    (hkeys : ∀ e ∈ entries.reduceOption, Data M arity e.1) (hk : Data M arity k)
    (default : Value) :
    Within n M Budget (mapGet l isSet index entries k default) fun v =>
      (v = default ∧ Absent Same k entries.reduceOption) ∨
        ∃ e ∈ entries.reduceOption, Same e.1 k ∧ v = e.2 := by
  refine (within_find hM hl hinv hkeys hk).bind fun j hj => ?_
  rcases hj with ⟨rfl, habs⟩ | ⟨i, e, rfl, hi, hsame⟩
  · exact within_pure (Or.inl ⟨rfl, habs⟩)
  · rw [if_neg (by omega)]
    refine (within_entryAt hi).bind fun e' he' => within_pure (Or.inr ⟨e, mem_live hi, hsame, ?_⟩)
    rw [he']

/-! ### Equality -/

theorem within_sameFrom {xs ys : List UInt8} (hlen : xs.length = ys.length) :
    Within n M Budget (sameFrom xs ys) fun r => r = true ↔ xs = ys := by
  induction xs generalizing ys with
  | nil =>
    have hys : ys = [] := List.length_eq_zero_iff.mp hlen.symm
    rw [hys]
    exact within_pure (by simp)
  | cons x xs ih =>
    cases ys with
    | nil => cases hlen
    | cons y ys =>
      refine (within_tick 1).bind fun _ _ => ?_
      by_cases hxy : x = y
      · rw [if_neg (not_not.mpr hxy)]
        refine (within n M Budget).mono (ih (Nat.succ.inj hlen)) fun r hr => ?_
        rw [hr, hxy, List.cons_inj_right]
      · rw [if_pos hxy]
        exact within_pure (by simp [hxy])

theorem within_sameBytes (xs ys : List UInt8) :
    Within n M Budget (sameBytes xs ys) fun r => r = true ↔ xs = ys := by
  rw [sameBytes]
  by_cases hlen : xs.length = ys.length
  · rw [if_neg (not_not.mpr hlen)]
    exact within_sameFrom hlen
  · rw [if_pos hlen]
    refine within_pure ⟨nofun, fun heq => absurd (congrArg List.length heq) hlen⟩

theorem within_seqEqual (hl : LevelMeets n M arity l) {xs ys : List Value}
    (hxs : ∀ x ∈ xs, Data M arity x) (hys : ∀ y ∈ ys, Data M arity y)
    (hlen : xs.length = ys.length) :
    Within n M Budget (seqEqual l xs ys) fun r => r = true ↔ SameList xs ys := by
  induction xs generalizing ys with
  | nil =>
    have hnil : ys = [] := List.length_eq_zero_iff.mp hlen.symm
    rw [hnil]
    exact within_pure (by simp [SameList])
  | cons x xs ih =>
    cases ys with
    | nil => cases hlen
    | cons y ys =>
      have hcons : SameList (x :: xs) (y :: ys) ↔ Same x y ∧ SameList xs ys := by
        rw [SameList]
        constructor
        · rintro ⟨y', ys', heq, h, h'⟩
          cases heq
          exact ⟨h, h'⟩
        · rintro ⟨h, h'⟩
          exact ⟨y, ys, rfl, h, h'⟩
      refine (hl.equal x y (hxs x List.mem_cons_self) (hys y List.mem_cons_self)).bind
        fun r hr => ?_
      cases r with
      | true =>
        refine (within n M Budget).mono (ih (fun z hz => hxs z (List.mem_cons_of_mem _ hz))
          (fun z hz => hys z (List.mem_cons_of_mem _ hz)) (Nat.succ.inj hlen)) fun r' hr' => ?_
        rw [hr', hcons]
        exact ⟨fun h => ⟨hr.mp rfl, h⟩, fun h => h.2⟩
      | false =>
        refine within_pure ⟨by simp, fun h => ?_⟩
        exact absurd (hr.mpr (hcons.mp h).1) Bool.false_ne_true

/-- The loop finds for every entry of the first map one of the second. -/
theorem within_entriesEqual (hM : Limit M) (hl : LevelMeets n M arity l)
    (hinv : MapInv M isSet index entries)
    (hkeys : ∀ e ∈ entries.reduceOption, Data M arity e.1)
    (hitems : ∀ e ∈ entries.reduceOption, Data M arity e.2) {es : List (Value × Value)}
    (hk : ∀ e ∈ es, Data M arity e.1) (hi : ∀ e ∈ es, Data M arity e.2) :
    Within n M Budget (entriesEqual l index entries isSet (listed isSet es)) fun r =>
      r = true ↔ ∀ e ∈ es, ∃ e' ∈ entries.reduceOption, SameEntry isSet e e' := by
  induction es with
  | nil => exact within_pure (by simp)
  | cons e es ih =>
    have hek := hk e List.mem_cons_self
    have hei := hi e List.mem_cons_self
    have hrest := ih (fun e he => hk e (List.mem_cons_of_mem _ he))
      fun e he => hi e (List.mem_cons_of_mem _ he)
    rw [listed_cons]
    simp only [List.forall_mem_cons]
    -- nothing matches an entry whose key is not there
    have hnone : Absent Same e.1 entries.reduceOption →
        ¬ ∃ e' ∈ entries.reduceOption, SameEntry isSet e e' := by
      rintro habs ⟨e', he', hs⟩
      exact habs e' he' (same_symm hek (hkeys e' he') hs.1)
    cases isSet with
    | true =>
      show Within n M Budget (entriesEqual l index entries true (e.1 :: listed true es)) _
      rw [entriesEqual]
      refine (within_find hM hl hinv hkeys hek).bind fun j hj => ?_
      rcases hj with ⟨rfl, habs⟩ | ⟨i, e', rfl, hi, hsame⟩
      · exact within_pure ⟨nofun, fun h => absurd h.1 (hnone habs)⟩
      · have he' := mem_live hi
        rw [if_neg (by omega)]
        refine (within n M Budget).mono hrest fun r hr => ?_
        rw [hr]
        refine ⟨fun h => ⟨⟨e', he', same_symm (hkeys e' he') hek hsame, Or.inl rfl⟩, h⟩,
          fun h => h.2⟩
    | false =>
      show Within n M Budget (entriesEqual l index entries false (e.1 :: e.2 :: listed false es)) _
      rw [entriesEqual]
      refine (within_find hM hl hinv hkeys hek).bind fun j hj => ?_
      rcases hj with ⟨rfl, habs⟩ | ⟨i, e', rfl, hi, hsame⟩
      · exact within_pure ⟨nofun, fun h => absurd h.1 (hnone habs)⟩
      · have he' := mem_live hi
        rw [if_neg (by omega)]
        refine (within_mapGet hM hl hinv hkeys hek .nil).bind fun w hw => ?_
        -- the item that is read is the one of the entry that was found
        have hw' : w = e'.2 := by
          rcases hw with ⟨-, habs⟩ | ⟨e'', he'', hs, rfl⟩
          · exact absurd hsame (habs e' he')
          · rw [hinv.entry_unique hkeys hek he'' he' hs hsame]
        rw [hw']
        have hiff : (∃ x ∈ entries.reduceOption, SameEntry false e x) ↔ Same e.2 e'.2 := by
          constructor
          · rintro ⟨x, hx, hs⟩
            have hxe : x = e' := hinv.entry_unique hkeys hek hx he'
              (same_symm hek (hkeys x hx) hs.1) hsame
            rw [← hxe]
            exact hs.2.resolve_left Bool.false_ne_true
          · exact fun h => ⟨e', he', same_symm (hkeys e' he') hek hsame, Or.inr h⟩
        refine (hl.equal e.2 e'.2 hei (hitems e' he')).bind fun r hr => ?_
        cases r with
        | true =>
          refine (within n M Budget).mono hrest fun r' hr' => ?_
          rw [hr', hiff]
          exact ⟨fun h => ⟨hr.mp rfl, h⟩, fun h => h.2⟩
        | false =>
          refine within_pure ⟨by simp, fun h => ?_⟩
          exact absurd (hr.mpr (hiff.mp h.1)) Bool.false_ne_true

theorem within_sequenceEqual (hl : LevelMeets n M arity l) {a b : Value} {xs ys : List Value}
    (ha : a = .list xs ∨ a = .vector xs) (hb : b = .list ys ∨ b = .vector ys)
    (hda : Data M arity a) (hdb : Data M arity b) :
    Within n M Budget (sequenceEqual l a b) fun r => r = true ↔ SameList xs ys := by
  refine (within_seqValues ha hda).bind fun x hx => (within_seqValues hb hdb).bind fun y hy => ?_
  rw [hx, hy]
  by_cases hlen : xs.length = ys.length
  · rw [if_neg (not_not.mpr hlen)]
    exact within_seqEqual hl (hda.elements ha) (hdb.elements hb) hlen
  · rw [if_pos hlen]
    refine within_pure ⟨nofun, fun h => absurd ?_ hlen⟩
    exact ((sameList_iff xs ys).mp h).length_eq

/-- What `equal_inner` does once the references are found to be different. -/
theorem within_equalInner (ids : Identity) (hM : Limit M) (hl : LevelMeets n M arity l)
    {a b : Value} (ha : Data M arity a) (hb : Data M arity b) :
    Within n M Budget (equalInner ids l a b) fun r => r = true ↔ Same a b := by
  unfold equalInner
  refine (within_get (Q := fun _ => True) fun _ _ => trivial).bind fun c _ => ?_
  by_cases hid : ids.test c a b = true
  · rw [if_pos hid]
    have hab := ids.sound hid
    rw [hab]
    exact within_pure ⟨fun _ => same_refl hb, fun _ => rfl⟩
  rw [if_neg hid]
  -- values of different kinds, and values that are compared at once
  cases ha with
  | nil => cases hb <;> exact within_pure (by simp [Same])
  | integer => cases hb <;> exact within_pure (by simp [Same, eq_comm])
  | floating => cases hb <;> exact within_pure (by simp [Same, sameFloat])
  | boolean => cases hb <;> exact within_pure (by simp [Same, eq_comm])
  | text keyword data =>
    cases hb with
    | text keyword' data' =>
      by_cases hk : keyword = keyword'
      · show Within n M Budget (if keyword ≠ keyword' then _ else _) _
        rw [if_neg (not_not.mpr hk), hk]
        refine (within n M Budget).mono (within_sameBytes data data') fun r hr => ?_
        rw [hr, Same]
        simp [eq_comm]
      · show Within n M Budget (if keyword ≠ keyword' then _ else _) _
        rw [if_pos hk]
        exact within_pure (by simpa [Same] using fun h _ => hk h.symm)
    | _ => exact within_pure (by simp [Same])
  | @list xs hlen hxs =>
    cases hb with
    | @list ys hlen' hys =>
      refine (within n M Budget).mono (within_sequenceEqual hl (Or.inl rfl) (Or.inl rfl)
        (.list hlen hxs) (.list hlen' hys)) fun r hr => ?_
      rw [hr, Same]
      simp
    | @vector ys hlen' hys =>
      refine (within n M Budget).mono (within_sequenceEqual hl (Or.inl rfl) (Or.inr rfl)
        (.list hlen hxs) (.vector hlen' hys)) fun r hr => ?_
      rw [hr, Same]
      simp
    | _ => exact within_pure (by simp [Same])
  | @vector xs hlen hxs =>
    cases hb with
    | @list ys hlen' hys =>
      refine (within n M Budget).mono (within_sequenceEqual hl (Or.inr rfl) (Or.inl rfl)
        (.vector hlen hxs) (.list hlen' hys)) fun r hr => ?_
      rw [hr, Same]
      simp
    | @vector ys hlen' hys =>
      refine (within n M Budget).mono (within_sequenceEqual hl (Or.inr rfl) (Or.inr rfl)
        (.vector hlen hxs) (.vector hlen' hys)) fun r hr => ?_
      rw [hr, Same]
      simp
    | _ => exact within_pure (by simp [Same])
  | @map isSet index entries hkeys hitems hinv =>
    cases hb with
    | @map isSet' index' entries' hkeys' hitems' hinv' =>
      by_cases hs : isSet = isSet'
      · subst hs
        show Within n M Budget (if isSet ≠ isSet then _ else _) _
        rw [if_neg (not_not.mpr rfl)]
        refine (within_seqValues_map hinv).bind fun x hx => ?_
        refine (within_seqValues_map hinv').bind fun y hy => ?_
        rw [hx, hy, length_listed, length_listed]
        have hpos : 0 < width isSet := by cases isSet <;> decide
        by_cases hlen : entries.reduceOption.length = entries'.reduceOption.length
        · rw [if_neg (not_not.mpr (by rw [hlen]))]
          refine (within n M Budget).mono
            (within_entriesEqual hM hl hinv' hkeys' hitems' hkeys hitems) fun r hr => ?_
          rw [hr, Same, ← sameEntries_iff]
          simp [hlen]
        · rw [if_pos fun h => hlen (Nat.eq_of_mul_eq_mul_right hpos h)]
          exact within_pure (by simp [Same, hlen])
      · show Within n M Budget (if isSet ≠ isSet' then _ else _) _
        rw [if_pos hs]
        refine within_pure ⟨by simp, fun h => absurd ?_ hs⟩
        rw [Same] at h
        obtain ⟨i, es, heq, -⟩ := h
        cases heq
        rfl
    | _ => exact within_pure (by simp [Same])
  | @record name keys data hlen hdata =>
    cases hb with
    | @record name' keys' data' hlen' hdata' =>
      refine (within_sameBytes name name').bind fun r hr => ?_
      cases r with
      | true =>
        have hname := hr.mp rfl
        refine (within n M Budget).mono (within_seqEqual hl hdata hdata'
          (by rw [hlen, hlen', hname])) fun r' hr' => ?_
        rw [hr', Same, hname]
        simp
      | false =>
        refine within_pure ⟨by simp, fun h => absurd ?_ Bool.false_ne_true⟩
        rw [Same] at h
        obtain ⟨ks, d, heq, -⟩ := h
        cases heq
        exact hr.mpr rfl
    | _ => exact within_pure (by simp [Same])

/-- Whatever is left of the depth, keys, hashes and equality are right on data. -/
theorem level_meets (ids : Identity) (hM : Limit M) (n : ℕ) :
    LevelMeets n M arity (level ids n) := by
  induction n with
  | zero => exact ⟨fun _ _ => within_refused, fun _ _ => within_refused, fun _ _ _ _ => within_refused⟩
  | succ n ih =>
    refine ⟨fun v hv => ?_, fun v hv => ?_, fun a b ha hb => ?_⟩
    · exact within_enclosed (within_keyInner ih hv)
    · exact within_enclosed (within_hashInner ih hv)
    · exact within_enclosed (within_equalInner ids hM ih ha hb)

end Wax.Wisp.Rt
