import SelfWiring.World

/-!
# Programs seen through a view

A view is what is looked at of a world: what its store holds, say, or the events announced so far.
`Program.Brings view p v Q` says that `p`, run alone in a world that shows `v`, ends with a result
and in a world that shows something which together satisfy `Q`. What a program brings about follows
from what its parts do, whatever the view is; only the effects differ.
-/

namespace SelfWiring

variable {σ V : Type} [Store σ] (view : World σ → V)

def Program.Brings {α : Type} (p : Program α) (v : V) (Q : α → V → Prop) : Prop :=
  ∀ w : World σ, view w = v → Q (w.run p).1 (view (w.run p).2)

def Action.Brings {ε α : Type} (a : Action ε α) (v : V) (Q : Except ε α → V → Prop) : Prop :=
  Program.Brings view a.run v Q

variable {view} {v : V}

namespace Program

variable {α β : Type} {p : Program α}

theorem Brings.imp {Q R : α → V → Prop} (h : Brings view p v Q) (hQR : ∀ a v', Q a v' → R a v') :
    Brings view p v R := fun w hw => hQR _ _ (h w hw)

theorem brings_pure {Q : α → V → Prop} {a : α} (h : Q a v) :
    Brings view (pure a : Program α) v Q := fun w hw => by
  show Q a (view w)
  rw [hw]
  exact h

theorem Brings.bind {f : α → Program β} {Q : α → V → Prop} {R : β → V → Prop}
    (h : Brings view p v Q) (hf : ∀ a v', Q a v' → Brings view (f a) v' R) :
    Brings view (p >>= f) v R := by
  intro w hw
  show R (w.run (p.bind f)).1 (view (w.run (p.bind f)).2)
  rw [World.run_bind]
  exact hf _ _ (h w hw) _ rfl

end Program

namespace Action

variable {ε ε' α β : Type} {a : Action ε α}

theorem Brings.imp {Q R : Except ε α → V → Prop} (h : Brings view a v Q)
    (hQR : ∀ r v', Q r v' → R r v') : Brings view a v R := Program.Brings.imp h hQR

theorem brings_pure {Q : Except ε α → V → Prop} {x : α} (h : Q (.ok x) v) :
    Brings view (pure x : Action ε α) v Q := Program.brings_pure h

theorem brings_throw {Q : Except ε α → V → Prop} {e : ε} (h : Q (.error e) v) :
    Brings view (throw e : Action ε α) v Q := Program.brings_pure h

/-- The rest of an action runs after a good result only. -/
theorem Brings.bind {f : α → Action ε β} {Q : Except ε α → V → Prop} {R : Except ε β → V → Prop}
    (h : Brings view a v Q) (hok : ∀ x v', Q (.ok x) v' → Brings view (f x) v' R)
    (herror : ∀ e v', Q (.error e) v' → R (.error e) v') : Brings view (a >>= f) v R := by
  show Program.Brings view (a.run >>= fun r => ExceptT.bindCont f r) v R
  refine Program.Brings.bind h fun r v' hr => ?_
  cases r with
  | ok x => exact hok x v' hr
  | error e => exact Program.brings_pure (herror e v' hr)

/-- A program inside an action never fails. -/
theorem brings_lift {p : Program α} {Q : Except ε α → V → Prop}
    (h : Program.Brings view p v fun x v' => Q (.ok x) v') :
    Brings view (ExceptT.lift p : Action ε α) v Q := by
  show Program.Brings view (p >>= fun x => pure (Except.ok x)) v _
  exact Program.Brings.bind h fun x v' hx => Program.brings_pure hx

theorem brings_adapt {g : ε → ε'} {Q : Except ε' α → V → Prop}
    (h : Brings view a v fun r v' => Q (r.mapError g) v') :
    Brings view (ExceptT.adapt g a : Action ε' α) v Q := by
  show Program.Brings view (a.run >>= fun r => pure (r.mapError g)) v _
  exact Program.Brings.bind h fun r v' hr => Program.brings_pure hr

theorem Brings.bind_adapt {g : ε → ε'} {f : α → Action ε' β} {Q : Except ε α → V → Prop}
    {R : Except ε' β → V → Prop} (h : Brings view a v Q)
    (hok : ∀ x v', Q (.ok x) v' → Brings view (f x) v' R)
    (herror : ∀ e v', Q (.error e) v' → R (.error (g e)) v') :
    Brings view (ExceptT.adapt g a >>= f) v R := by
  refine Brings.bind (brings_adapt (Q := fun r v' => ∃ r', Q r' v' ∧ r = r'.mapError g) ?_) ?_ ?_
  · exact h.imp fun r v' hr => ⟨r, hr, rfl⟩
  · rintro x v' ⟨x' | x', hr, hx⟩
    · exact nomatch hx
    · exact hok x v' (Except.ok.inj hx ▸ hr)
  · rintro e v' ⟨e' | x', hr, he⟩
    · exact Except.error.inj he ▸ herror e' v' hr
    · exact nomatch he

/-- The rest of an action that does not fail always runs. -/
theorem Brings.andThen {f : α → Action ε β} {Q : α → V → Prop} {R : Except ε β → V → Prop}
    (h : Brings view a v fun r v' => ∃ x, r = .ok x ∧ Q x v')
    (hf : ∀ x v', Q x v' → Brings view (f x) v' R) : Brings view (a >>= f) v R := by
  refine h.bind ?_ fun e v' ⟨_, he, _⟩ => nomatch he
  rintro x v' ⟨x', hx, hQ⟩
  rw [Except.ok.inj hx]
  exact hf x' v' hQ

theorem Brings.adapt_andThen {g : ε → ε'} {f : α → Action ε' β} {Q : α → V → Prop}
    {R : Except ε' β → V → Prop} (h : Brings view a v fun r v' => ∃ x, r = .ok x ∧ Q x v')
    (hf : ∀ x v', Q x v' → Brings view (f x) v' R) :
    Brings view (ExceptT.adapt g a >>= f) v R := by
  refine h.bind_adapt ?_ fun e v' ⟨_, he, _⟩ => nomatch he
  rintro x v' ⟨x', hx, hQ⟩
  rw [Except.ok.inj hx]
  exact hf x' v' hQ

end Action

end SelfWiring
