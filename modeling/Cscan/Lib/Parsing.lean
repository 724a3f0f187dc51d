import Cscan.Lib.Triple

/-! Parsers in a state monad with exceptions, where the input is a part of the state. `Reads put x s bs a s'`
says that `x`, started in `s` with `bs` in front of any other input, takes exactly `bs`, returns `a`,
and ends in `s'`. -/

namespace Cscan.Lib

universe u

variable {β : Type*} {ε σ α γ : Type u} {put : List β → σ → σ}

def Reads (put : List β → σ → σ) (x : EStateM ε σ α) (s : σ) (bs : List β) (a : α) (s' : σ) : Prop :=
  ∀ tail, x (put (bs ++ tail) s) = .ok a (put tail s')

/-- As `Reads`, where `x` raises `e` instead, and no matter how much of the input is left in `s'`. -/
def Fails (put : List β → σ → σ) (x : EStateM ε σ α) (s : σ) (bs : List β) (e : ε) (s' : σ) : Prop :=
  ∀ tail, ∃ left, x (put (bs ++ tail) s) = .error e (put left s')

namespace Reads

theorem pure (s : σ) (a : α) : Reads put (Pure.pure a : EStateM ε σ α) s [] a s := fun _ => rfl

/-- The rest of a program runs on what the first step leaves. -/
theorem bind_eq {x : EStateM ε σ α} {s s' : σ} {bs : List β} {a : α} (hx : Reads put x s bs a s')
    (f : α → EStateM ε σ γ) (tail : List β) :
    (x >>= f) (put (bs ++ tail) s) = f a (put tail s') := bind_ok (hx tail)

theorem bind {x : EStateM ε σ α} {f : α → EStateM ε σ γ} {s s' s'' : σ} {bs bs' : List β} {a : α}
    {b : γ} (hx : Reads put x s bs a s') (hf : Reads put (f a) s' bs' b s'') :
    Reads put (x >>= f) s (bs ++ bs') b s'' := by
  intro tail
  rw [List.append_assoc, hx.bind_eq]
  exact hf tail

/-- A step that takes no input. -/
theorem step {x : EStateM ε σ α} {f : α → EStateM ε σ γ} {s s' s'' : σ} {bs : List β} {a : α} {b : γ}
    (hx : Reads put x s [] a s') (hf : Reads put (f a) s' bs b s'') :
    Reads put (x >>= f) s bs b s'' := hx.bind hf

/-- The last step, after which no input is left. -/
theorem last {x : EStateM ε σ α} {f : α → EStateM ε σ γ} {s s' s'' : σ} {bs : List β} {a : α} {b : γ}
    (hx : Reads put x s bs a s') (hf : Reads put (f a) s' [] b s'') :
    Reads put (x >>= f) s bs b s'' := by
  have h := hx.bind hf
  rwa [List.append_nil] at h

/-- The step after which the rest fails. -/
theorem fails {x : EStateM ε σ α} {f : α → EStateM ε σ γ} {s s' s'' : σ} {bs bs' : List β} {a : α}
    {e : ε} (hx : Reads put x s bs a s') (hf : Fails put (f a) s' bs' e s'') :
    Fails put (x >>= f) s (bs ++ bs') e s'' := by
  intro tail
  obtain ⟨left, hf'⟩ := hf tail
  refine ⟨left, ?_⟩
  rw [List.append_assoc, hx.bind_eq]
  exact hf'

theorem fails_step {x : EStateM ε σ α} {f : α → EStateM ε σ γ} {s s' s'' : σ} {bs : List β} {a : α}
    {e : ε} (hx : Reads put x s [] a s') (hf : Fails put (f a) s' bs e s'') :
    Fails put (x >>= f) s bs e s'' := hx.fails hf

theorem fails_last {x : EStateM ε σ α} {f : α → EStateM ε σ γ} {s s' s'' : σ} {bs : List β} {a : α}
    {e : ε} (hx : Reads put x s bs a s') (hf : Fails put (f a) s' [] e s'') :
    Fails put (x >>= f) s bs e s'' := by
  have h := hx.fails hf
  rwa [List.append_nil] at h

end Reads

/-- The step that fails. -/
theorem Fails.bind {x : EStateM ε σ α} {f : α → EStateM ε σ γ} {s s' : σ} {bs : List β} {e : ε}
    (hx : Fails put x s bs e s') : Fails put (x >>= f) s bs e s' := by
  intro tail
  obtain ⟨left, hx'⟩ := hx tail
  exact ⟨left, bind_error hx'⟩

end Cscan.Lib
