import Mathlib.Data.Nat.Notation

/-!
# Programs with a state

`Ends p s post` reads: the program `p`, run from the state `s`, ends with a value and a state of which
`post` holds. The rules follow the notation (`ends_pure`, `ends_bind`, `ends_get`, `ends_set`), and what
holds of the end of a program may be weakened (`Ends.imp`).
-/

namespace Stateful

variable {σ α β : Type} {p : StateM σ α} {f : α → StateM σ β} {s t : σ} {post post' : α → σ → Prop}

/-- How the program ends from a state. -/
def Ends (p : StateM σ α) (s : σ) (post : α → σ → Prop) : Prop := post (p.run s).1 (p.run s).2

@[simp] theorem ends_pure {a : α} : Ends (pure a) s post ↔ post a s := Iff.rfl

@[simp] theorem ends_bind {post : β → σ → Prop} : Ends (p >>= f) s post ↔ Ends p s fun a t => Ends (f a) t post :=
  Iff.rfl

@[simp] theorem ends_get {post : σ → σ → Prop} : Ends get s post ↔ post s s := Iff.rfl

@[simp] theorem ends_set {post : PUnit → σ → Prop} : Ends (set t) s post ↔ post ⟨⟩ t := Iff.rfl

@[simp] theorem ends_modify {g : σ → σ} {post : PUnit → σ → Prop} : Ends (modify g) s post ↔ post ⟨⟩ (g s) := Iff.rfl

theorem Ends.imp (h : Ends p s post) (himp : ∀ a t, post a t → post' a t) : Ends p s post' := himp _ _ h

theorem Ends.of_forall (h : ∀ a t, post a t) : Ends p s post := h _ _

end Stateful
