import Mathlib.Data.List.Induction
import Mathlib.Data.List.Nodup
import Mathlib.Logic.Function.Basic
import GoHotstuff.Lib.Run

/-!
# Several maps in one key space

A store maps keys to values.  Several tenants use one store, each through an encoding of its own keys.  What a tenant
sees of the store is the composition with its encoding: its own writes act on that as they would on a map of its own,
provided the encoding is injective, and the writes of a tenant whose encoded keys are others do not change it.  Of
several writes of one key only the last one counts (`writes_apply`).
-/

namespace Lib

variable {K L V N : Type}

/-- The writes with the keys encoded. -/
def encoded (enc : K → L) (ws : List (K × Option V)) : List (L × Option V) :=
  ws.map (Prod.map enc id)

@[simp]
theorem encoded_nil (enc : K → L) : encoded enc ([] : List (K × Option V)) = [] := rfl

@[simp]
theorem encoded_cons (enc : K → L) (w : K × Option V) (ws : List (K × Option V)) :
    encoded enc (w :: ws) = (enc w.1, w.2) :: encoded enc ws := rfl

private theorem encoded_append_singleton (enc : K → L) (ws : List (K × Option V)) (w : K × Option V) :
    encoded enc (ws ++ [w]) = encoded enc ws ++ [(enc w.1, w.2)] := List.map_append

variable [DecidableEq L]

/-- The store after the writes, in order: a value is bound to the key, `none` unbinds it. -/
def writes (s : L → Option V) (ws : List (L × Option V)) : L → Option V :=
  ws.foldl (fun s w => Function.update s w.1 w.2) s

@[simp]
theorem writes_nil (s : L → Option V) : writes s [] = s := rfl

@[simp]
theorem writes_cons (s : L → Option V) (w : L × Option V) (ws : List (L × Option V)) :
    writes s (w :: ws) = writes (Function.update s w.1 w.2) ws := rfl

private theorem writes_append_singleton (s : L → Option V) (ws : List (L × Option V)) (w : L × Option V) :
    writes s (ws ++ [w]) = Function.update (writes s ws) w.1 w.2 := by
  unfold writes
  rw [List.foldl_append]
  rfl

/-! ### The last write of each key -/

/-- What the last write of the key binds it to; `none` if no write is of this key. -/
def lastWrite (ws : List (L × Option V)) (k : L) : Option (Option V) :=
  (ws.reverse.find? fun w => w.1 = k).map fun w => w.2

theorem lastWrite_append_singleton (ws : List (L × Option V)) (w : L × Option V) (k : L) :
    lastWrite (ws ++ [w]) k = if w.1 = k then some w.2 else lastWrite ws k := by
  unfold lastWrite
  rw [List.reverse_append, List.reverse_singleton, List.singleton_append, List.find?_cons]
  by_cases h : w.1 = k
  · simp [h]
  · simp [h]

/-- The store after the writes holds the last one of each key. -/
theorem writes_apply (s : L → Option V) (ws : List (L × Option V)) (k : L) :
    writes s ws k = (lastWrite ws k).getD (s k) := by
  induction ws using List.reverseRecOn with
  | nil => rfl
  | append_singleton ws w ih =>
    rw [writes_append_singleton, lastWrite_append_singleton]
    by_cases h : w.1 = k
    · rw [if_pos h, ← h, Function.update_self]
      rfl
    · rw [if_neg h, Function.update_of_ne (Ne.symm h), ih]

/-- If no key is written twice, the order of the writes does not matter. -/
theorem lastWrite_eq_some_iff {ws : List (L × Option V)} (hnodup : (ws.map fun w => w.1).Nodup) {k : L} {v : Option V} :
    lastWrite ws k = some v ↔ (k, v) ∈ ws := by
  unfold lastWrite
  rw [Option.map_eq_some_iff]
  constructor
  · rintro ⟨w, hw, rfl⟩
    have hk : w.1 = k := by simpa using List.find?_some hw
    rw [← hk]
    exact List.mem_reverse.1 (List.mem_of_find?_eq_some hw)
  · intro hmem
    obtain ⟨w, hw⟩ : ∃ w, (ws.reverse.find? fun w => w.1 = k) = some w := by
      rw [← Option.isSome_iff_exists, List.find?_isSome]
      exact ⟨(k, v), List.mem_reverse.2 hmem, by simp⟩
    have hk : w.1 = k := by simpa using List.find?_some hw
    have hw' := List.mem_reverse.1 (List.mem_of_find?_eq_some hw)
    have heq : w = (k, v) := List.inj_on_of_nodup_map hnodup hw' hmem hk
    exact ⟨w, hw, by rw [heq]⟩

/-- The writes of another tenant. -/
private theorem writes_encoded_comp_of_ne {enc enc' : K → L} (hne : ∀ k k', enc k ≠ enc' k') (s : L → Option V)
    (ws : List (K × Option V)) : writes s (encoded enc' ws) ∘ enc = s ∘ enc := by
  induction ws generalizing s with
  | nil => rfl
  | cons w ws ih =>
    rw [encoded_cons, writes_cons, ih]
    exact Function.update_comp_eq_of_forall_ne s w.2 fun k => hne k w.1

/-- A tenant does not write under a key that is not one of its encoded ones. -/
private theorem lastWrite_encoded_of_notMem {enc : K → L} {x : L} (hx : ∀ k, enc k ≠ x) (ws : List (K × Option V)) :
    lastWrite (encoded enc ws) x = none := by
  induction ws using List.reverseRecOn with
  | nil => rfl
  | append_singleton ws w ih => rw [encoded_append_singleton, lastWrite_append_singleton, if_neg (hx w.1), ih]

variable [DecidableEq K]

/-- A tenant's own writes. -/
private theorem writes_encoded_comp {enc : K → L} (hinj : Function.Injective enc) (s : L → Option V)
    (ws : List (K × Option V)) : writes s (encoded enc ws) ∘ enc = writes (s ∘ enc) ws := by
  induction ws generalizing s with
  | nil => rfl
  | cons w ws ih => rw [encoded_cons, writes_cons, writes_cons, ih, Function.update_comp_eq_of_injective _ hinj]

private theorem lastWrite_encoded {enc : K → L} (hinj : Function.Injective enc) (ws : List (K × Option V)) (k : K) :
    lastWrite (encoded enc ws) (enc k) = lastWrite ws k := by
  induction ws using List.reverseRecOn with
  | nil => rfl
  | append_singleton ws w ih =>
    rw [encoded_append_singleton, lastWrite_append_singleton, lastWrite_append_singleton, ih]
    simp only [hinj.eq_iff]

/-- Two sequences of writes of a tenant that agree in the last write of each key have the same effect on the store. -/
theorem writes_encoded_congr {enc : K → L} (hinj : Function.Injective enc) {ws ws' : List (K × Option V)}
    (h : ∀ k, lastWrite ws k = lastWrite ws' k) (s : L → Option V) :
    writes s (encoded enc ws) = writes s (encoded enc ws') := by
  funext x
  rw [writes_apply, writes_apply]
  by_cases hx : ∃ k, enc k = x
  · obtain ⟨k, rfl⟩ := hx
    rw [lastWrite_encoded hinj, lastWrite_encoded hinj, h]
  · rw [not_exists] at hx
    rw [lastWrite_encoded_of_notMem hx, lastWrite_encoded_of_notMem hx]

/-- The store after the writes of a call, made by the tenant of the given name. -/
def sharedStep (enc : N → K → L) (s : L → Option V) (call : N × List (K × Option V)) : L → Option V :=
  writes s (encoded (enc call.1) call.2)

/-- What tenant `n` sees after a run is its own map after its own calls. -/
theorem run_sharedStep_comp [DecidableEq N] {enc : N → K → L} {n : N} (hinj : Function.Injective (enc n))
    {calls : List (N × List (K × Option V))} (hne : ∀ call ∈ calls, call.1 ≠ n → ∀ k k', enc n k ≠ enc call.1 k')
    (s : L → Option V) :
    run (sharedStep enc) s calls ∘ enc n =
      run (fun m call => writes m call.2) (s ∘ enc n) (calls.filter fun call => call.1 = n) := by
  induction calls generalizing s with
  | nil => rfl
  | cons call calls ih =>
    have ih' := ih (fun c hc => hne c (List.mem_cons_of_mem _ hc)) (sharedStep enc s call)
    rw [run_cons, ih']
    by_cases hn : call.1 = n
    · rw [List.filter_cons_of_pos (by simpa using hn), run_cons, sharedStep, hn, writes_encoded_comp hinj]
    · rw [List.filter_cons_of_neg (by simpa using hn), sharedStep,
        writes_encoded_comp_of_ne (hne call List.mem_cons_self hn)]

end Lib
