import Mathlib.Logic.Relation
import Mathlib.Data.List.Basic

/-!
Programs that talk to an environment by requests.

A `Prog` either returns or issues one request and continues with the answer, so
the code between two requests is a pure function and the points at which the
environment can interfere are explicit. A `Handler` is one environment; it may
refuse a request, which stops the program there.

`Safe` is the one predicate the proofs use: every request is allowed when it is
issued, every state between two requests keeps the invariant, and a returned
result meets the postcondition. `run`, `trace` and `Exec` are the views a
specification is written with, and the adequacy lemmas derive each of them from
`Safe`.
-/

namespace LtcOs.Request

/-- A program over the requests `ι`, where `ο i` is the type of the answers to
request `i`. -/
inductive Prog (ι : Type) (ο : ι → Type) (α : Type) where
  | ret (a : α)
  | req (i : ι) (k : ο i → Prog ι ο α)

/-- An environment with states `σ`: the answer to a request and the next state,
or `none` when the request is never answered. -/
abbrev Handler (ι : Type) (ο : ι → Type) (σ : Type) := (i : ι) → σ → Option (ο i × σ)

namespace Prog

variable {ι : Type} {ο : ι → Type} {σ α β γ : Type}

protected def bind : Prog ι ο α → (α → Prog ι ο β) → Prog ι ο β
  | .ret a, f => f a
  | .req i k, f => .req i fun o => (k o).bind f

instance : Monad (Prog ι ο) where
  pure := .ret
  bind := Prog.bind

/-- Issue one request and return its answer. -/
def ask (i : ι) : Prog ι ο (ο i) := .req i .ret

@[simp] theorem pure_eq (a : α) : (pure a : Prog ι ο α) = .ret a := rfl

@[simp] theorem ret_bind (a : α) (f : α → Prog ι ο β) : Prog.ret a >>= f = f a := rfl

@[simp] theorem req_bind (i : ι) (k : ο i → Prog ι ο α) (f : α → Prog ι ο β) :
    Prog.req i k >>= f = .req i fun o => k o >>= f := rfl

theorem bind_assoc (p : Prog ι ο α) (f : α → Prog ι ο β) (g : β → Prog ι ο γ) :
    p >>= f >>= g = p >>= fun a => f a >>= g := by
  induction p with
  | ret a => rfl
  | req i k ih => simp only [req_bind, ih]

/-- A program that has no request to issue is its result. -/
def value {ο : Empty → Type} : Prog Empty ο α → α
  | .ret a => a
  | .req i _ => i.elim

@[simp] theorem value_ret {ο : Empty → Type} (a : α) : (ret a : Prog Empty ο α).value = a := rfl

theorem value_bind {ο : Empty → Type} (p : Prog Empty ο α) (f : α → Prog Empty ο β) :
    (p >>= f).value = (f p.value).value := by
  cases p with
  | ret a => rfl
  | req i k => exact i.elim

/-! ### Complete runs -/

/-- The result and the final state of a run, or `none` when the environment
stopped it. -/
def run (H : Handler ι ο σ) : Prog ι ο α → σ → Option (α × σ)
  | .ret a, s => some (a, s)
  | .req i k, s =>
      match H i s with
      | none => none
      | some (o, s') => (k o).run H s'

/-- The requests a run issues, each with the state it was issued in. A request
that is never answered is the last one. -/
def trace (H : Handler ι ο σ) : Prog ι ο α → σ → List (ι × σ)
  | .ret _, _ => []
  | .req i k, s =>
      (i, s) :: match H i s with
        | none => []
        | some (o, s') => (k o).trace H s'

variable {H : Handler ι ο σ}

@[simp] theorem run_ret (a : α) (s : σ) : (ret a : Prog ι ο α).run H s = some (a, s) := rfl

theorem run_ask (i : ι) (s : σ) : (ask i : Prog ι ο (ο i)).run H s = H i s := by
  simp only [ask, run]
  cases H i s with
  | none => rfl
  | some r => rfl

@[simp] theorem trace_ret (a : α) (s : σ) : (ret a : Prog ι ο α).trace H s = [] := rfl

theorem run_value {ο : Empty → Type} {H : Handler Empty ο σ} (p : Prog Empty ο α) (s : σ) :
    p.run H s = some (p.value, s) := by
  cases p with
  | ret a => rfl
  | req i k => exact i.elim

theorem run_bind (p : Prog ι ο α) (f : α → Prog ι ο β) (s : σ) :
    (p >>= f).run H s = (p.run H s).bind fun r => (f r.1).run H r.2 := by
  induction p generalizing s with
  | ret a => rfl
  | req i k ih =>
      simp only [req_bind, run]
      cases H i s with
      | none => rfl
      | some r => exact ih r.1 r.2

theorem trace_bind (p : Prog ι ο α) (f : α → Prog ι ο β) (s : σ) :
    (p >>= f).trace H s = p.trace H s ++
      ((p.run H s).elim [] fun r => (f r.1).trace H r.2) := by
  induction p generalizing s with
  | ret a => rfl
  | req i k ih =>
      simp only [req_bind, trace, run, List.cons_append, List.cons.injEq, true_and]
      cases H i s with
      | none => rfl
      | some r => exact ih r.1 r.2

/-! ### Safety -/

/-- Every issued request is allowed by `E`, every state after a request
satisfies `I`, and a result is returned only under `Q`. A run that the
environment stops is safe up to that point. -/
def Safe (H : Handler ι ο σ) (I : σ → Prop) (E : ι → σ → Prop) (Q : α → σ → Prop) :
    Prog ι ο α → σ → Prop
  | .ret a, s => Q a s
  | .req i k, s => E i s ∧ ∀ o s', H i s = some (o, s') → I s' ∧ (k o).Safe H I E Q s'

variable {I J : σ → Prop} {E F : ι → σ → Prop} {Q R : α → σ → Prop}

@[simp] theorem safe_ret {a : α} {s : σ} : (ret a).Safe H I E Q s ↔ Q a s := Iff.rfl

theorem safe_req {i : ι} {k : ο i → Prog ι ο α} {s : σ} :
    (req i k).Safe H I E Q s ↔
      E i s ∧ ∀ o s', H i s = some (o, s') → I s' ∧ (k o).Safe H I E Q s' := Iff.rfl

/-- The sequencing rule. -/
theorem safe_bind {p : Prog ι ο α} {f : α → Prog ι ο β} {Q : β → σ → Prop} {s : σ} :
    (p >>= f).Safe H I E Q s ↔ p.Safe H I E (fun a s' => (f a).Safe H I E Q s') s := by
  induction p generalizing s with
  | ret a => rfl
  | req i k ih => simp only [req_bind, safe_req, ih]

/-- The rule for a single request. -/
theorem safe_ask {i : ι} {f : ο i → Prog ι ο β} {Q : β → σ → Prop} {s : σ} :
    (ask i >>= f).Safe H I E Q s ↔
      E i s ∧ ∀ o s', H i s = some (o, s') → I s' ∧ (f o).Safe H I E Q s' := Iff.rfl

/-- The consequence rule. -/
theorem Safe.imp {p : Prog ι ο α} {s : σ} (h : p.Safe H I E Q s)
    (hI : ∀ s, I s → J s) (hE : ∀ i s, E i s → F i s) (hQ : ∀ a s, Q a s → R a s) :
    p.Safe H J F R s := by
  induction p generalizing s with
  | ret a => exact hQ a s h
  | req i k ih =>
      refine ⟨hE i s h.1, fun o s' answer => ?_⟩
      obtain ⟨kept, rest⟩ := h.2 o s' answer
      exact ⟨hI s' kept, ih o rest⟩

theorem Safe.post {p : Prog ι ο α} {s : σ} (h : p.Safe H I E Q s)
    (hQ : ∀ a s, Q a s → R a s) : p.Safe H I E R s :=
  h.imp (fun _ => id) (fun _ _ => id) hQ

/-- Two proofs about one program. -/
theorem Safe.and {p : Prog ι ο α} {s : σ} (h : p.Safe H I E Q s) (h' : p.Safe H J F R s) :
    p.Safe H (fun s => I s ∧ J s) (fun i s => E i s ∧ F i s) (fun a s => Q a s ∧ R a s) s := by
  induction p generalizing s with
  | ret a => exact ⟨h, h'⟩
  | req i k ih =>
      refine ⟨⟨h.1, h'.1⟩, fun o s' answer => ?_⟩
      obtain ⟨kept, rest⟩ := h.2 o s' answer
      obtain ⟨kept', rest'⟩ := h'.2 o s' answer
      exact ⟨⟨kept, kept'⟩, ih o rest rest'⟩

/-- Nothing is asked of the program. -/
theorem safe_trivial (p : Prog ι ο α) (s : σ) :
    p.Safe H (fun _ => True) (fun _ _ => True) (fun _ _ => True) s := by
  induction p generalizing s with
  | ret a => trivial
  | req i k ih => exact ⟨trivial, fun o s' _ => ⟨trivial, ih o s'⟩⟩

/-- Sequencing with an intermediate assertion. -/
theorem Safe.bind {p : Prog ι ο α} {f : α → Prog ι ο β} {R : β → σ → Prop} {s : σ}
    (h : p.Safe H I E Q s) (hf : ∀ a s, Q a s → (f a).Safe H I E R s) :
    (p >>= f).Safe H I E R s :=
  safe_bind.mpr (h.post hf)

/-! ### Adequacy -/

theorem Safe.run {p : Prog ι ο α} {s s' : σ} {a : α} (h : p.Safe H I E Q s)
    (returned : p.run H s = some (a, s')) : Q a s' := by
  induction p generalizing s with
  | ret b =>
      obtain ⟨rfl, rfl⟩ := Prod.mk.inj (Option.some.inj returned)
      exact h
  | req i k ih =>
      simp only [Prog.run] at returned
      cases answer : H i s with
      | none => simp [answer] at returned
      | some r =>
          rw [answer] at returned
          exact ih r.1 (h.2 r.1 r.2 answer).2 returned

theorem Safe.trace {p : Prog ι ο α} {s : σ} (h : p.Safe H I E Q s) :
    ∀ e ∈ p.trace H s, E e.1 e.2 := by
  induction p generalizing s with
  | ret a => simp
  | req i k ih =>
      simp only [Prog.trace]
      cases answer : H i s with
      | none => simpa using h.1
      | some r =>
          simp only [List.mem_cons, forall_eq_or_imp]
          exact ⟨h.1, ih r.1 (h.2 r.1 r.2 answer).2⟩

/-- The requests of a run are all that `Safe` asks about. -/
theorem safe_of_trace {p : Prog ι ο α} {s : σ} (h : ∀ e ∈ p.trace H s, E e.1 e.2) :
    p.Safe H (fun _ => True) E (fun _ _ => True) s := by
  induction p generalizing s with
  | ret a => trivial
  | req i k ih =>
      simp only [Prog.trace] at h
      refine ⟨h (i, s) (by simp), fun o s' answer => ⟨trivial, ih o fun e he => h e ?_⟩⟩
      rw [answer]
      exact List.mem_cons_of_mem _ he

/-- Inversion of sequencing: the first part is safe, and so is what follows its
result. -/
theorem Safe.left {p : Prog ι ο α} {f : α → Prog ι ο β} {Q : β → σ → Prop} {s : σ}
    (h : (p >>= f).Safe H I E Q s) : p.Safe H I E (fun _ _ => True) s :=
  (safe_bind.mp h).post fun _ _ _ => trivial

theorem Safe.right {p : Prog ι ο α} {f : α → Prog ι ο β} {Q : β → σ → Prop} {s s' : σ} {a : α}
    (h : (p >>= f).Safe H I E Q s) (ran : p.run H s = some (a, s')) : (f a).Safe H I E Q s' :=
  (safe_bind.mp h).run ran

/-- If only requests that are answered are issued, the run returns. -/
theorem Safe.total {p : Prog ι ο α} {s : σ} (h : p.Safe H I E Q s)
    (answered : ∀ i s, E i s → (H i s).isSome) :
    ∃ a s', p.run H s = some (a, s') ∧ Q a s' := by
  induction p generalizing s with
  | ret a => exact ⟨a, s, rfl, h⟩
  | req i k ih =>
      obtain ⟨r, answer⟩ := Option.isSome_iff_exists.mp (answered i s h.1)
      obtain ⟨a, s', ran, post⟩ := ih r.1 (h.2 r.1 r.2 answer).2
      exact ⟨a, s', by simp [Prog.run, answer, ran], post⟩

/-- One request is answered. -/
inductive Exec (H : Handler ι ο σ) : Prog ι ο α × σ → Prog ι ο α × σ → Prop where
  | answer {i : ι} {k : ο i → Prog ι ο α} {s s' : σ} {o : ο i} (h : H i s = some (o, s')) :
      Exec H (.req i k, s) (k o, s')

theorem exec_of_run {p : Prog ι ο α} {s s' : σ} {a : α} (h : p.run H s = some (a, s')) :
    Relation.ReflTransGen (Exec H) (p, s) (.ret a, s') := by
  induction p generalizing s with
  | ret b =>
      obtain ⟨rfl, rfl⟩ := Prod.mk.inj (Option.some.inj h)
      exact .refl
  | req i k ih =>
      simp only [Prog.run] at h
      cases answer : H i s with
      | none => simp [answer] at h
      | some r =>
          rw [answer] at h
          exact .head (.answer answer) (ih r.1 h)

/-- Safety is what a step preserves, so it serves as the invariant of a program
that is interrupted at an arbitrary point. -/
theorem Safe.exec {p p' : Prog ι ο α} {s s' : σ} (h : p.Safe H I E Q s)
    (step : Exec H (p, s) (p', s')) : I s' ∧ p'.Safe H I E Q s' := by
  cases step with
  | answer answer => exact h.2 _ _ answer

/-! ### Ghost state -/

variable {γ : Type}

/-- The environment with a record of the requests that it has answered. -/
def ghost (H : Handler ι ο σ) (after : γ → ι → γ) : Handler ι ο (σ × γ) :=
  fun i t => (H i t.1).map fun r => (r.1, r.2, after t.2 i)

/-- What the allowed requests keep of the state and the record holds wherever the program
comes to. -/
theorem Safe.ghost {after : γ → ι → γ} {J : σ → γ → Prop} {p : Prog ι ο α} {s : σ} {g : γ}
    (h : p.Safe H I E Q s) (start : J s g)
    (kept : ∀ i s g o s', E i s → J s g → H i s = some (o, s') → J s' (after g i)) :
    p.Safe (Prog.ghost H after) (fun t => J t.1 t.2) (fun _ _ => True)
      (fun a t => Q a t.1 ∧ J t.1 t.2) (s, g) := by
  induction p generalizing s g with
  | ret a => exact ⟨h, start⟩
  | req i k ih =>
      refine ⟨trivial, fun o t answer => ?_⟩
      obtain ⟨r, answered, same⟩ := Option.map_eq_some_iff.mp
        (show (H i s).map _ = some (o, t) from answer)
      obtain ⟨rfl, rfl⟩ := Prod.mk.inj same
      have next : J r.2 (after g i) := kept i s g r.1 r.2 h.1 start answered
      exact ⟨next, ih r.1 (h.2 r.1 r.2 answered).2 next⟩

end Prog

/-! ### Counted loops -/

namespace Prog

variable {ι : Type} {ο : ι → Type} {σ β : Type}

/-- `body i b`, `body (i + 1) b'`, ... for `k` iterations, threading the
accumulator. -/
def loop (body : Nat → β → Prog ι ο β) : (k i : Nat) → β → Prog ι ο β
  | 0, _, b => .ret b
  | k + 1, i, b => body i b >>= loop body k (i + 1)

variable {H : Handler ι ο σ} {I : σ → Prop} {E : ι → σ → Prop} {body : Nat → β → Prog ι ο β}

/-- The loop rule: `L j` holds before iteration `j`. -/
theorem safe_loop {L : Nat → β → σ → Prop} {i n : Nat} {b : β} {s : σ} (start : L i b s)
    (step : ∀ j b s, i ≤ j → j < i + n → L j b s →
      (body j b).Safe H I E (fun b' s' => L (j + 1) b' s') s) :
    (loop body n i b).Safe H I E (fun b' s' => L (i + n) b' s') s := by
  induction n generalizing i b s with
  | zero => simpa [loop] using start
  | succ n ih =>
      refine (step i b s (Nat.le_refl _) (by omega) start).bind fun b' s' next => ?_
      have rest := ih (i := i + 1) next fun j c t lo hi => step j c t (by omega) (by omega)
      simpa [Nat.add_assoc, Nat.add_comm 1 n] using rest

/-- Fold `mix` over the answers of `n` reads, from read `i` on. -/
def fold {κ : Type} (read : Nat → Prog ι ο κ) (mix : β → κ → β) : (n i : Nat) → β → Prog ι ο β
  | 0, _, b => .ret b
  | n + 1, i, b => read i >>= fun v => fold read mix n (i + 1) (mix b v)

/-- Reads that leave the state alone fold to the fold of their values. -/
theorem safe_fold {κ : Type} {read : Nat → Prog ι ο κ} {mix : β → κ → β} {f : Nat → κ} {n i : Nat}
    {b : β} {s : σ}
    (reads : ∀ k, i ≤ k → k < i + n → (read k).Safe H I E (fun v s' => v = f k ∧ s = s') s) :
    (fold read mix n i b).Safe H I E
      (fun v s' => v = (List.range' i n).foldl (fun b k => mix b (f k)) b ∧ s = s') s := by
  induction n generalizing i b with
  | zero => exact ⟨rfl, rfl⟩
  | succ n ih =>
      refine (reads i (Nat.le_refl _) (by omega)).bind fun v s' hv => ?_
      obtain ⟨rfl, rfl⟩ := hv
      exact ih fun k lo hi => reads k (by omega) (by omega)

/-- A safe fold allows every read that it comes to. -/
theorem Safe.read_of_fold {κ : Type} {read : Nat → Prog ι ο κ} {mix : β → κ → β} {f : Nat → κ}
    {Q : β → σ → Prop} {n i j : Nat} {b : β} {s : σ} (h : (fold read mix n i b).Safe H I E Q s)
    (answered : ∀ k, i ≤ k → k < j → (read k).run H s = some (f k, s)) (lo : i ≤ j)
    (hi : j < i + n) : (read j).Safe H I E (fun _ _ => True) s := by
  induction n generalizing i b with
  | zero => omega
  | succ n ih =>
      rcases Nat.eq_or_lt_of_le lo with rfl | lt
      · exact h.left
      · exact ih (h.right (answered i (Nat.le_refl _) lt))
          (fun k lo hi => answered k (by omega) hi) (by omega) (by omega)

theorem value_fold {ο : Empty → Type} {κ : Type} (f : Nat → κ) (mix : β → κ → β) (n i : Nat)
    (b : β) : (fold (fun k => (.ret (f k) : Prog Empty ο κ)) mix n i b).value =
      (List.range' i n).foldl (fun b k => mix b (f k)) b := by
  induction n generalizing i b with
  | zero => rfl
  | succ n ih => exact ih (i + 1) (mix b (f i))

/-! ### Programs that keep an invariant -/

/-- From every state of the invariant on, the program is safe and ends in one. -/
def Preserves {α : Type} (H : Handler ι ο σ) (I : σ → Prop) (E : ι → σ → Prop) (p : Prog ι ο α) :
    Prop :=
  ∀ s, I s → p.Safe H I E (fun _ s' => I s') s

variable {α γ κ : Type}

theorem preserves_ret (a : α) : Preserves H I E (.ret a) := fun _ inv => inv

theorem preserves_ask {i : ι} (allowed : ∀ s, I s → E i s)
    (kept : ∀ s o s', I s → H i s = some (o, s') → I s') : Preserves H I E (ask i) :=
  fun s inv => ⟨allowed s inv, fun o s' answer => ⟨kept s o s' inv answer, kept s o s' inv answer⟩⟩

theorem Preserves.bind {p : Prog ι ο α} {f : α → Prog ι ο γ} (first : Preserves H I E p)
    (rest : ∀ a, Preserves H I E (f a)) : Preserves H I E (p >>= f) :=
  fun s inv => (first s inv).bind fun a s' inv' => rest a s' inv'

theorem Preserves.ite {c : Prop} [Decidable c] {p q : Prog ι ο α} (left : Preserves H I E p)
    (right : Preserves H I E q) : Preserves H I E (if c then p else q) := by
  split
  · exact left
  · exact right

theorem preserves_loop (round : ∀ i b, Preserves H I E (body i b)) (n i : Nat) (b : β) :
    Preserves H I E (loop body n i b) := by
  induction n generalizing i b with
  | zero => exact preserves_ret b
  | succ n ih => exact (round i b).bind fun b' => ih (i + 1) b'

theorem preserves_fold {read : Nat → Prog ι ο κ} {mix : β → κ → β}
    (reads : ∀ i, Preserves H I E (read i)) (n i : Nat) (b : β) :
    Preserves H I E (fold read mix n i b) := by
  induction n generalizing i b with
  | zero => exact preserves_ret b
  | succ n ih => exact (reads i).bind fun v => ih (i + 1) (mix b v)

end Prog

end LtcOs.Request
