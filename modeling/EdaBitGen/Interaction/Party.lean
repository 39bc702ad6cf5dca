import EdaBitGen.Interaction.Proc

/-!
# Parties with a state and a source of randomness

A `Party M G σ α` is an interactive program over messages `M` with a local state `σ` and a
generator `G`.  `Sync rel P Q post` says that two parties run against each other to the end from
any two states related by `rel`, keep them related, and return values related by `post`; its rules
follow the shape of the two programs.
-/

namespace Interaction

/-! ## Two programs that end together -/

section Lockstep

variable {M α β α' β' : Type}

/-- `P` and `Q`, run against each other, both end with a value, and `R` relates the values. -/
def Lockstep (P : Proc M α) (Q : Proc M β) (R : α → β → Prop) : Prop :=
  ∃ l r a b, Proc.joint P Q = .ended l r (.ok a) (.ok b) ∧ R a b

namespace Lockstep

theorem pure {a : α} {b : β} {R : α → β → Prop} (h : R a b) :
    Lockstep (Proc.pure a : Proc M α) (Proc.pure b) R :=
  ⟨[], [], a, b, rfl, h⟩

theorem mono {P : Proc M α} {Q : Proc M β} {R S : α → β → Prop} (h : Lockstep P Q R)
    (hRS : ∀ a b, R a b → S a b) : Lockstep P Q S := by
  obtain ⟨l, r, a, b, hj, hR⟩ := h
  exact ⟨l, r, a, b, hj, hRS a b hR⟩

theorem and {P : Proc M α} {Q : Proc M β} {R S : α → β → Prop} (hR : Lockstep P Q R)
    (hS : Lockstep P Q S) : Lockstep P Q fun a b => R a b ∧ S a b := by
  obtain ⟨l, r, a, b, hj, ha⟩ := hR
  obtain ⟨l', r', a', b', hj', hb⟩ := hS
  rw [hj] at hj'
  injection hj' with _ _ hx hy
  cases hx
  cases hy
  exact ⟨l, r, a, b, hj, ha, hb⟩

theorem bind {P : Proc M α} {Q : Proc M β} {f : α → Proc M α'} {g : β → Proc M β'}
    {R : α → β → Prop} {S : α' → β' → Prop} (h : Lockstep P Q R)
    (hfg : ∀ a b, R a b → Lockstep (f a) (g b) S) : Lockstep (P >>= f) (Q >>= g) S := by
  obtain ⟨l, r, a, b, hj, hR⟩ := h
  obtain ⟨l', r', a', b', hj', hS⟩ := hfg a b hR
  exact ⟨l ++ l', r ++ r', a', b', Proc.joint_bind hj f g hj', hS⟩

/-- After first parts that end, what the compositions do is what the second parts do. -/
theorem bind_iff {P : Proc M α} {Q : Proc M β} {f : α → Proc M α'} {g : β → Proc M β'}
    {R : α → β → Prop} (h : Lockstep P Q R) :
    Lockstep P Q fun a b =>
      R a b ∧ ∀ S, Lockstep (P >>= f) (Q >>= g) S ↔ Lockstep (f a) (g b) S := by
  obtain ⟨l, r, a, b, hj, hR⟩ := h
  refine ⟨l, r, a, b, hj, hR, fun S => ⟨?_, ?_⟩⟩
  · rintro ⟨l', r', a', b', hj', hS⟩
    rw [Proc.joint_bind_eq hj] at hj'
    cases hj'' : Proc.joint (f a) (g b) with
    | stuck => simp [hj'', Proc.Outcome.after] at hj'
    | ended l₂ r₂ x y =>
      simp only [hj'', Proc.Outcome.after, Proc.Outcome.ended.injEq] at hj'
      obtain ⟨-, -, rfl, rfl⟩ := hj'
      exact ⟨l₂, r₂, a', b', hj'', hS⟩
  · rintro ⟨l', r', a', b', hj', hS⟩
    exact ⟨l ++ l', r ++ r', a', b', Proc.joint_bind hj f g hj', hS⟩

theorem swap {P : Proc M α} {Q : Proc M β} {R : α → β → Prop} (h : Lockstep P Q R) :
    Lockstep Q P fun b a => R a b := by
  obtain ⟨l, r, a, b, hj, hR⟩ := h
  exact ⟨r, l, b, a, by rw [Proc.joint_swap, hj]; rfl, hR⟩

theorem send_recv {m : M} {P : Proc M α} {k : M → Proc M β} {R : α → β → Prop}
    (h : Lockstep P (k m) R) : Lockstep (Proc.send m P) (Proc.recv k) R := by
  obtain ⟨l, r, a, b, hj, hR⟩ := h
  exact ⟨l, m :: r, a, b, by rw [Proc.joint_send_recv, hj]; rfl, hR⟩

theorem flush_left {P : Proc M α} {Q : Proc M β} {R : α → β → Prop} (h : Lockstep P Q R) :
    Lockstep (Proc.flush P) Q R := h

end Lockstep

end Lockstep

/-- An interactive program with a local state `σ` and a generator `G`. -/
abbrev Party (M G σ : Type) := StateT σ (StateT G (Proc M))

/-- A part `τ` of a state `σ`. -/
structure Lens (σ τ : Type) where
  get : σ → τ
  set : τ → σ → σ
  get_set : ∀ t s, get (set t s) = t
  set_get : ∀ s, set (get s) s = s
  set_set : ∀ t u s, set t (set u s) = set t s

namespace Lens

variable {σ τ υ : Type}

attribute [simp] get_set set_get set_set

/-- A part of a part. -/
def comp (L : Lens σ τ) (K : Lens τ υ) : Lens σ υ where
  get s := K.get (L.get s)
  set u s := L.set (K.set u (L.get s)) s
  get_set := by simp
  set_get := by simp
  set_set := by simp

end Lens

namespace Party

variable {M G D σ τ α β : Type}

/-- Send a message. -/
def write (m : M) : Party M G σ Unit := fun s g => .send m (.pure (((), s), g))

/-- Receive a message. -/
def read : Party M G σ M := fun s g => .recv fun m => .pure ((m, s), g)

/-- Flush the messages sent so far. -/
def flush : Party M G σ Unit := fun s g => .flush (.pure (((), s), g))

/-- Stop with an error. -/
def abort (e : String) : Party M G σ α := fun _ _ => .fail e

/-- Stop with an error unless the condition holds. -/
def assert (c : Prop) [Decidable c] (e : String) : Party M G σ Unit :=
  if c then pure () else abort e

/-- Take the next draw of a generator that is a stream of draws. -/
def draw : Party M (Stream' D) σ D := fun s g => .pure ((g.head, s), g.tail)

/-- Change the state without a message. -/
def act (f : σ → α × σ) : Party M G σ α := fun s g => .pure (f s, g)

/-- Run a program on a part of the state. -/
def zoom (L : Lens σ τ) (P : Party M G τ α) : Party M G σ α := fun s g =>
  P (L.get s) g >>= fun x => .pure ((x.1.1, L.set x.1.2 s), x.2)

/-! ## What a program does from a state and a generator -/

section Apply

variable (s : σ) (g : G)

@[simp] theorem pure_apply (a : α) : (pure a : Party M G σ α) s g = .pure ((a, s), g) := (rfl)

theorem bind_apply (P : Party M G σ α) (f : α → Party M G σ β) :
    (P >>= f) s g = P s g >>= fun x => f x.1.1 x.1.2 x.2 := (rfl)

@[simp] theorem write_apply (m : M) :
    (write m : Party M G σ Unit) s g = .send m (.pure (((), s), g)) := (rfl)

@[simp] theorem read_apply :
    (read : Party M G σ M) s g = .recv fun m => .pure ((m, s), g) := (rfl)

@[simp] theorem flush_apply :
    (flush : Party M G σ Unit) s g = .flush (.pure (((), s), g)) := (rfl)

@[simp] theorem abort_apply (e : String) : (abort e : Party M G σ α) s g = .fail e := (rfl)

@[simp] theorem draw_apply (d : Stream' D) :
    (draw : Party M (Stream' D) σ D) s d = .pure ((d.head, s), d.tail) := (rfl)

@[simp] theorem get_apply : (get : Party M G σ σ) s g = .pure ((s, s), g) := (rfl)

@[simp] theorem act_apply (f : σ → α × σ) : (act f : Party M G σ α) s g = .pure (f s, g) := (rfl)

theorem zoom_apply (L : Lens σ τ) (P : Party M G τ α) :
    zoom L P s g = P (L.get s) g >>= fun x => .pure ((x.1.1, L.set x.1.2 s), x.2) := (rfl)

end Apply

@[simp] theorem assert_true {c : Prop} [Decidable c] (h : c) (e : String) :
    (assert c e : Party M G σ Unit) = pure () := if_pos h

@[simp] theorem assert_false {c : Prop} [Decidable c] (h : ¬c) (e : String) :
    (assert c e : Party M G σ Unit) = abort e := if_neg h

theorem joint_assert_assert {H : Type} (c d : Prop) [Decidable c] [Decidable d] (e e' : String)
    (s : σ) (g : G) (t : τ) (h : H) :
    Proc.joint ((assert c e : Party M G σ Unit) s g) ((assert d e' : Party M H τ Unit) t h) =
      .ended [] [] (if c then .ok (((), s), g) else .error e)
        (if d then .ok (((), t), h) else .error e') := by
  by_cases hc : c <;> by_cases hd : d <;> simp [hc, hd] <;> rfl

theorem isOk_ite (c : Prop) [Decidable c] (a : α) (e : String) :
    (if c then Except.ok a else Except.error e).isOk ↔ c := by
  by_cases h : c <;> simp [h, Except.isOk, Except.toBool]

@[simp] theorem abort_bind (e : String) (f : α → Party M G σ β) :
    (abort e >>= f) = (abort e : Party M G σ β) := rfl

/-! ## One party on a list of incoming messages -/

section Run

variable {s s' : σ} {g g' : G} {inbox rest : List M}

theorem run_bind_eq_some {P : Party M G σ α} {f : α → Party M G σ β} {b : β} :
    Proc.run ((P >>= f) s g) inbox = some (((b, s'), g'), rest) ↔
      ∃ a s₁ g₁ mid, Proc.run (P s g) inbox = some (((a, s₁), g₁), mid) ∧
        Proc.run (f a s₁ g₁) mid = some (((b, s'), g'), rest) := by
  rw [bind_apply, Proc.run_bind_eq_some]
  constructor
  · rintro ⟨⟨⟨a, s₁⟩, g₁⟩, mid, h, h'⟩
    exact ⟨a, s₁, g₁, mid, h, h'⟩
  · rintro ⟨a, s₁, g₁, mid, h, h'⟩
    exact ⟨((a, s₁), g₁), mid, h, h'⟩

theorem run_flush_bind (f : Unit → Party M G σ β) :
    Proc.run ((flush >>= f) s g) inbox = Proc.run (f () s g) inbox := rfl

theorem run_get_bind (f : σ → Party M G σ β) :
    Proc.run ((get >>= f) s g) inbox = Proc.run (f s s g) inbox := rfl

theorem run_act_bind (f : σ → α × σ) (k : α → Party M G σ β) :
    Proc.run ((act f >>= k) s g) inbox = Proc.run (k (f s).1 (f s).2 g) inbox := rfl

theorem run_write_bind (m : M) (f : Unit → Party M G σ β) :
    Proc.run ((write m >>= f) s g) inbox = Proc.run (f () s g) inbox := rfl

theorem run_pure_eq_some {a a' : α} :
    Proc.run ((pure a : Party M G σ α) s g) inbox = some (((a', s'), g'), rest) ↔
      a' = a ∧ s' = s ∧ g' = g ∧ rest = inbox := by
  simp [eq_comm, and_assoc]

theorem run_act_eq_some {f : σ → α × σ} {a : α} :
    Proc.run ((act f : Party M G σ α) s g) inbox = some (((a, s'), g'), rest) ↔
      a = (f s).1 ∧ s' = (f s).2 ∧ g' = g ∧ rest = inbox := by
  rw [act_apply, Proc.run_pure, Option.some.injEq, Prod.mk.injEq, Prod.mk.injEq]
  constructor
  · rintro ⟨⟨h, rfl⟩, rfl⟩
    exact ⟨by rw [h], by rw [h], rfl, rfl⟩
  · rintro ⟨rfl, rfl, rfl, rfl⟩
    exact ⟨⟨rfl, rfl⟩, rfl⟩

theorem run_read_eq_some {m : M} :
    Proc.run ((read : Party M G σ M) s g) inbox = some (((m, s'), g'), rest) ↔
      inbox = m :: rest ∧ s' = s ∧ g' = g := by
  cases inbox with
  | nil => simp
  | cons m' inbox =>
    simp only [read_apply, Proc.run_recv_cons, Proc.run_pure, Option.some.injEq, Prod.mk.injEq,
      List.cons.injEq]
    constructor
    · rintro ⟨⟨⟨rfl, rfl⟩, rfl⟩, rfl⟩
      exact ⟨⟨rfl, rfl⟩, rfl, rfl⟩
    · rintro ⟨⟨rfl, rfl⟩, rfl, rfl⟩
      exact ⟨⟨⟨rfl, rfl⟩, rfl⟩, rfl⟩

theorem run_assert_eq_some {c : Prop} [Decidable c] {e : String} {u : Unit} :
    Proc.run ((assert c e : Party M G σ Unit) s g) inbox = some (((u, s'), g'), rest) ↔
      c ∧ s' = s ∧ g' = g ∧ rest = inbox := by
  by_cases h : c
  · simp [h, eq_comm, and_assoc]
  · simp [h]

theorem run_zoom_eq_some {L : Lens σ τ} {P : Party M G τ α} {a : α} :
    Proc.run (zoom L P s g) inbox = some (((a, s'), g'), rest) ↔
      ∃ t, Proc.run (P (L.get s) g) inbox = some (((a, t), g'), rest) ∧ s' = L.set t s := by
  rw [zoom_apply, Proc.run_bind_eq_some]
  constructor
  · rintro ⟨⟨⟨a', t⟩, g₁⟩, mid, h, hp⟩
    simp only [Proc.run_pure, Option.some.injEq, Prod.mk.injEq] at hp
    obtain ⟨⟨⟨rfl, rfl⟩, rfl⟩, rfl⟩ := hp
    exact ⟨t, h, rfl⟩
  · rintro ⟨t, h, rfl⟩
    exact ⟨_, _, h, rfl⟩

theorem forall₂_of_run_mapM {γ : Type} {f : γ → Party M G σ α} {cs : List γ} {as : List α}
    (h : Proc.run (cs.mapM f s g) inbox = some (((as, s'), g'), rest)) :
    List.Forall₂ (fun c a => ∃ s g inbox s' g' rest,
      Proc.run (f c s g) inbox = some (((a, s'), g'), rest)) cs as := by
  induction cs generalizing s g inbox as s' g' rest with
  | nil =>
    rw [List.mapM_nil, run_pure_eq_some] at h
    rw [h.1]
    exact .nil
  | cons c cs ih =>
    rw [List.mapM_cons, run_bind_eq_some] at h
    obtain ⟨a, s₁, g₁, mid, ha, h⟩ := h
    obtain ⟨as', s₂, g₂, mid', has, h⟩ := run_bind_eq_some.1 h
    rw [(run_pure_eq_some.1 h).1]
    exact .cons ⟨s, g, inbox, s₁, g₁, mid, ha⟩ (ih has)

theorem length_of_run_mapM {γ : Type} {f : γ → Party M G σ α} {cs : List γ} {as : List α}
    (h : Proc.run (cs.mapM f s g) inbox = some (((as, s'), g'), rest)) : as.length = cs.length :=
  (forall₂_of_run_mapM h).length_eq.symm

end Run

/-! ## Programs that read nothing -/

/-- Without reading a message, the program goes from `s` to `s'` and returns `a`. -/
def Emits (P : Party M G σ α) (s : σ) (a : α) (s' : σ) : Prop :=
  ∀ g inbox, Proc.run (P s g) inbox = some (((a, s'), g), inbox)

namespace Emits

variable {s s' s'' : σ} {a : α} {b : β}

theorem pure : Emits (Pure.pure a : Party M G σ α) s a s := fun _ _ => rfl

theorem act (f : σ → α × σ) : Emits (Party.act f : Party M G σ α) s (f s).1 (f s).2 :=
  fun _ _ => rfl

theorem write (m : M) : Emits (Party.write m : Party M G σ Unit) s () s := fun _ _ => rfl

theorem bind {P : Party M G σ α} {f : α → Party M G σ β} (h : Emits P s a s')
    (hf : Emits (f a) s' b s'') : Emits (P >>= f) s b s'' := fun g inbox => by
  rw [bind_apply, Proc.run_bind, h g inbox]
  exact hf g inbox

theorem zoom {L : Lens τ σ} {P : Party M G σ α} {t : τ} (h : Emits P (L.get t) a s') :
    Emits (Party.zoom L P) t a (L.set s' t) := fun g inbox => by
  rw [zoom_apply, Proc.run_bind, h g inbox]
  rfl

end Emits

/-! ## Programs without messages -/

/-- Without any message, the program goes from `s` to `s'` and returns `a`. -/
def Silent (P : Party M G σ α) (s : σ) (a : α) (s' : σ) : Prop :=
  ∀ g, P s g = Proc.pure ((a, s'), g)

namespace Silent

variable {s s' s'' : σ} {a : α} {b : β}

theorem pure : Silent (Pure.pure a : Party M G σ α) s a s := fun _ => rfl

theorem act (f : σ → α × σ) : Silent (Party.act f : Party M G σ α) s (f s).1 (f s).2 :=
  fun _ => rfl

theorem get : Silent (MonadState.get : Party M G σ σ) s s s := fun _ => rfl

theorem bind {P : Party M G σ α} {f : α → Party M G σ β} (h : Silent P s a s')
    (hf : Silent (f a) s' b s'') : Silent (P >>= f) s b s'' := fun g => by
  rw [bind_apply, h g, Proc.pure_bind']
  exact hf g

theorem zoom {L : Lens τ σ} {P : Party M G σ α} {t : τ} (h : Silent P (L.get t) a s') :
    Silent (Party.zoom L P) t a (L.set s' t) := fun g => by
  rw [zoom_apply, h g, Proc.pure_bind']

theorem mapM {γ : Type} {f : γ → Party M G σ α} (h : ∀ c s, ∃ a s', Silent (f c) s a s')
    (cs : List γ) (s : σ) : ∃ as s', as.length = cs.length ∧ Silent (cs.mapM f) s as s' := by
  induction cs generalizing s with
  | nil => exact ⟨[], s, rfl, pure⟩
  | cons c cs ih =>
    obtain ⟨a, s₁, hc⟩ := h c s
    obtain ⟨as, s₂, hlength, hcs⟩ := ih s₁
    refine ⟨a :: as, s₂, by rw [List.length_cons, hlength, List.length_cons], ?_⟩
    rw [List.mapM_cons]
    exact hc.bind (hcs.bind pure)

theorem run_bind {P : Party M G σ α} {f : α → Party M G σ β} (h : Silent P s a s') (g : G)
    (inbox : List M) : Proc.run ((P >>= f) s g) inbox = Proc.run (f a s' g) inbox := by
  rw [bind_apply, h g, Proc.pure_bind']

end Silent

/-! ## Programs that only draw -/

/-- Without any message and without a change of the state, the program returns a value with `R`. -/
def Draws (P : Party M G σ α) (R : α → Prop) : Prop :=
  ∀ s g, ∃ a g', P s g = Proc.pure ((a, s), g') ∧ R a

namespace Draws

theorem pure {a : α} {R : α → Prop} (h : R a) : Draws (Pure.pure a : Party M G σ α) R :=
  fun _ g => ⟨a, g, rfl, h⟩

theorem mono {P : Party M G σ α} {R S : α → Prop} (h : Draws P R) (hRS : ∀ a, R a → S a) :
    Draws P S := fun s g => by
  obtain ⟨a, g', hP, ha⟩ := h s g
  exact ⟨a, g', hP, hRS a ha⟩

theorem draw : Draws (Party.draw : Party M (Stream' D) σ D) fun _ => True :=
  fun _ g => ⟨g.head, g.tail, rfl, trivial⟩

theorem bind {P : Party M G σ α} {f : α → Party M G σ β} {R : α → Prop} {S : β → Prop}
    (h : Draws P R) (hf : ∀ a, R a → Draws (f a) S) : Draws (P >>= f) S := fun s g => by
  obtain ⟨a, g', hP, ha⟩ := h s g
  rw [bind_apply, hP, Proc.pure_bind']
  exact hf a ha s g'

theorem mapM {γ : Type} {f : γ → Party M G σ α} {R : α → Prop} (h : ∀ c, Draws (f c) R)
    (cs : List γ) : Draws (cs.mapM f) fun as => as.length = cs.length ∧ ∀ a ∈ as, R a := by
  induction cs with
  | nil => exact pure ⟨rfl, by simp⟩
  | cons c cs ih =>
    rw [List.mapM_cons]
    refine (h c).bind fun a ha => ih.bind fun as has => pure ⟨by simp [has.1], ?_⟩
    exact List.forall_mem_cons.2 ⟨ha, has.2⟩

end Draws

theorem mapM_eq_pure {γ : Type} {f : γ → Party M G σ α} {k : γ → α} {cs : List γ}
    (h : ∀ c ∈ cs, f c = pure (k c)) : cs.mapM f = pure (cs.map k) := by
  induction cs with
  | nil => rfl
  | cons c cs ih =>
    obtain ⟨hc, hcs⟩ := List.forall_mem_cons.1 h
    rw [List.mapM_cons, hc, pure_bind, ih hcs, pure_bind, List.map_cons]

/-! ## What a program sends -/

/-- Whatever state it starts in and whatever it reads, when the program ends with a value it has
sent `msgs` and taken the generator from `g` to `g'`. -/
def Says (P : Party M G σ α) (g : G) (msgs : List M) (g' : G) : Prop :=
  ∀ s inbox a s' g₁ rest, Proc.run (P s g) inbox = some (((a, s'), g₁), rest) →
    Proc.sent (P s g) inbox = msgs ∧ g₁ = g'

namespace Says

variable {g g' g'' : G} {msgs msgs' : List M}

theorem pure (a : α) : Says (Pure.pure a : Party M G σ α) g [] g := by
  intro s inbox a' s' g₁ rest h
  simp only [pure_apply, Proc.run_pure, Option.some.injEq, Prod.mk.injEq] at h
  exact ⟨rfl, h.1.2.symm⟩

theorem act (f : σ → α × σ) : Says (Party.act f : Party M G σ α) g [] g := by
  intro s inbox a' s' g₁ rest h
  simp only [act_apply, Proc.run_pure, Option.some.injEq, Prod.mk.injEq] at h
  exact ⟨rfl, h.1.2.symm⟩

theorem get : Says (MonadState.get : Party M G σ σ) g [] g := by
  intro s inbox a' s' g₁ rest h
  simp only [get_apply, Proc.run_pure, Option.some.injEq, Prod.mk.injEq] at h
  exact ⟨rfl, h.1.2.symm⟩

theorem flush : Says (Party.flush : Party M G σ Unit) g [] g := by
  intro s inbox a' s' g₁ rest h
  simp only [flush_apply, Proc.run_flush, Proc.run_pure, Option.some.injEq, Prod.mk.injEq] at h
  exact ⟨rfl, h.1.2.symm⟩

theorem write (m : M) : Says (Party.write m : Party M G σ Unit) g [m] g := by
  intro s inbox a' s' g₁ rest h
  simp only [write_apply, Proc.run_send, Proc.run_pure, Option.some.injEq, Prod.mk.injEq] at h
  exact ⟨rfl, h.1.2.symm⟩

theorem read : Says (Party.read : Party M G σ M) g [] g := by
  intro s inbox a' s' g₁ rest h
  obtain ⟨rfl, -, rfl⟩ := run_read_eq_some.1 h
  exact ⟨rfl, rfl⟩

theorem assert (c : Prop) [Decidable c] (e : String) :
    Says (Party.assert c e : Party M G σ Unit) g [] g := by
  intro s inbox a' s' g₁ rest h
  obtain ⟨hc, -, rfl, -⟩ := run_assert_eq_some.1 h
  exact ⟨by rw [assert_true hc]; rfl, rfl⟩

theorem abort (e : String) : Says (Party.abort e : Party M G σ α) g msgs g' := by
  intro s inbox a' s' g₁ rest h
  simp at h

theorem bind {P : Party M G σ α} {f : α → Party M G σ β} (h : Says P g msgs g')
    (hf : ∀ a, Says (f a) g' msgs' g'') : Says (P >>= f) g (msgs ++ msgs') g'' := by
  intro s inbox b s' g₁ rest hrun
  obtain ⟨a, s₁, g₂, mid, hP, hfa⟩ := run_bind_eq_some.1 hrun
  obtain ⟨hsent, rfl⟩ := h s inbox a s₁ g₂ mid hP
  obtain ⟨hsent', hg⟩ := hf a s₁ mid b s' g₁ rest hfa
  exact ⟨by rw [bind_apply, Proc.sent_bind hP, hsent, hsent'], hg⟩

theorem silent_bind {P : Party M G σ α} {f : α → Party M G σ β} (h : Says P g [] g)
    (hf : ∀ a, Says (f a) g msgs g') : Says (P >>= f) g msgs g' :=
  bind h hf

theorem bind_silent {P : Party M G σ α} {f : α → Party M G σ β} (h : Says P g msgs g')
    (hf : ∀ a, Says (f a) g' [] g') : Says (P >>= f) g msgs g' := by
  have := h.bind hf
  rwa [List.append_nil] at this

theorem write_bind {m : M} {f : Unit → Party M G σ β} (hf : Says (f ()) g msgs g') :
    Says (Party.write m >>= f) g (m :: msgs) g' :=
  bind (write m) fun _ => hf

theorem draw_bind {d : Stream' D} {d' : Stream' D} {f : D → Party M (Stream' D) σ β}
    (hf : Says (f d.head) d.tail msgs d') : Says (Party.draw >>= f) d msgs d' := by
  intro s inbox b s' g₁ rest hrun
  rw [bind_apply, draw_apply, Proc.pure_bind'] at hrun ⊢
  exact hf s inbox b s' g₁ rest hrun

theorem zoom {L : Lens τ σ} {P : Party M G σ α} (h : Says P g msgs g') :
    Says (Party.zoom L P) g msgs g' := by
  intro s inbox a s' g₁ rest hrun
  rw [zoom_apply] at hrun ⊢
  obtain ⟨⟨⟨a₁, t⟩, g₂⟩, mid, hP, hpure⟩ := Proc.run_bind_eq_some.1 hrun
  simp only [Proc.run_pure, Option.some.injEq, Prod.mk.injEq] at hpure
  obtain ⟨⟨⟨rfl, rfl⟩, rfl⟩, rfl⟩ := hpure
  obtain ⟨hsent, hg⟩ := h _ _ _ _ _ _ hP
  exact ⟨by rw [Proc.sent_bind hP, hsent]; exact List.append_nil _, hg⟩

theorem foldlM {γ : Type} {f : α → γ → Party M G σ α} (h : ∀ a c, Says (f a c) g [] g)
    (cs : List γ) (a : α) : Says (cs.foldlM f a) g [] g := by
  induction cs generalizing a with
  | nil => exact pure a
  | cons c cs ih =>
    rw [List.foldlM_cons]
    exact (h a c).bind fun a => ih a

end Says

/-! ## How many messages a program exchanges -/

/-- Whatever it starts from, a program that ends with a value has sent `m` messages and read `n`. -/
def Counts (P : Party M G σ α) (m n : ℕ) : Prop :=
  ∀ s g inbox x rest, Proc.run (P s g) inbox = some (x, rest) →
    (Proc.sent (P s g) inbox).length = m ∧ inbox.length = rest.length + n

namespace Counts

variable {m n m' n' : ℕ}

theorem of_pure {P : Party M G σ α} (h : ∀ s g, ∃ x, P s g = Proc.pure x) : Counts P 0 0 := by
  intro s g inbox x rest hrun
  obtain ⟨y, hy⟩ := h s g
  rw [hy, Proc.run_pure, Option.some.injEq, Prod.mk.injEq] at hrun
  rw [hy, hrun.2]
  exact ⟨rfl, rfl⟩

theorem pure (a : α) : Counts (Pure.pure a : Party M G σ α) 0 0 := of_pure fun _ _ => ⟨_, rfl⟩

theorem act (f : σ → α × σ) : Counts (Party.act f : Party M G σ α) 0 0 := of_pure fun _ _ => ⟨_, rfl⟩

theorem get : Counts (MonadState.get : Party M G σ σ) 0 0 := of_pure fun _ _ => ⟨_, rfl⟩

theorem abort (e : String) : Counts (Party.abort e : Party M G σ α) m n :=
  fun _ _ _ _ _ hrun => nomatch hrun

theorem assert (c : Prop) [Decidable c] (e : String) :
    Counts (Party.assert c e : Party M G σ Unit) 0 0 := by
  by_cases hc : c
  · rw [assert_true hc]
    exact pure ()
  · rw [assert_false hc]
    exact abort e

theorem write (m : M) : Counts (Party.write m : Party M G σ Unit) 1 0 := by
  intro s g inbox x rest hrun
  rw [write_apply, Proc.run_send, Proc.run_pure, Option.some.injEq, Prod.mk.injEq] at hrun
  rw [hrun.2]
  exact ⟨rfl, rfl⟩

theorem read : Counts (Party.read : Party M G σ M) 0 1 := by
  intro s g inbox x rest hrun
  cases inbox with
  | nil => cases hrun
  | cons m inbox =>
    rw [read_apply, Proc.run_recv_cons, Proc.run_pure, Option.some.injEq, Prod.mk.injEq] at hrun
    rw [hrun.2]
    exact ⟨rfl, rfl⟩

theorem bind {P : Party M G σ α} {f : α → Party M G σ β} (h : Counts P m n)
    (hf : ∀ a, Counts (f a) m' n') : Counts (P >>= f) (m + m') (n + n') := by
  intro s g inbox x rest hrun
  obtain ⟨⟨⟨a, s'⟩, g'⟩, mid, hP, hfa⟩ := Proc.run_bind_eq_some.1 (bind_apply s g P f ▸ hrun)
  obtain ⟨hsent, hread⟩ := h s g inbox _ mid hP
  obtain ⟨hsent', hread'⟩ := hf a s' g' mid x rest hfa
  refine ⟨?_, by omega⟩
  rw [bind_apply, Proc.sent_bind hP, List.length_append, hsent, hsent']

theorem silent_bind {P : Party M G σ α} {f : α → Party M G σ β} (h : Counts P 0 0)
    (hf : ∀ a, Counts (f a) m n) : Counts (P >>= f) m n := by
  have := h.bind hf
  rwa [Nat.zero_add, Nat.zero_add] at this

theorem draws_bind {P : Party M G σ α} {f : α → Party M G σ β} {R : α → Prop} (h : Draws P R)
    (hf : ∀ a, R a → Counts (f a) m n) : Counts (P >>= f) m n := by
  intro s g inbox x rest hrun
  obtain ⟨a, g', hP, ha⟩ := h s g
  rw [bind_apply, hP, Proc.pure_bind'] at hrun ⊢
  exact hf a ha s g' inbox x rest hrun

theorem bind_silent {P : Party M G σ α} {f : α → Party M G σ β} (h : Counts P m n)
    (hf : ∀ a, Counts (f a) 0 0) : Counts (P >>= f) m n :=
  h.bind hf

theorem zoom {L : Lens τ σ} {P : Party M G σ α} (h : Counts P m n) :
    Counts (Party.zoom L P) m n := by
  intro s g inbox x rest hrun
  rw [zoom_apply] at hrun ⊢
  obtain ⟨y, mid, hP, hpure⟩ := Proc.run_bind_eq_some.1 hrun
  obtain ⟨-, rfl⟩ := Prod.mk.inj (Option.some.inj hpure)
  obtain ⟨hsent, hread⟩ := h _ _ _ _ _ hP
  exact ⟨by rw [Proc.sent_bind hP, List.length_append, hsent]; rfl, hread⟩

theorem mapM {γ : Type} {f : γ → Party M G σ α} {cs : List γ} (h : ∀ c ∈ cs, Counts (f c) m n) :
    Counts (cs.mapM f) (cs.length * m) (cs.length * n) := by
  induction cs with
  | nil => simpa using pure (M := M) (G := G) (σ := σ) ([] : List α)
  | cons c cs ih =>
    obtain ⟨hc, hcs⟩ := List.forall_mem_cons.1 h
    rw [List.mapM_cons, List.length_cons, Nat.succ_mul, Nat.succ_mul, Nat.add_comm _ m,
      Nat.add_comm _ n]
    exact hc.bind fun a => (ih hcs).bind_silent fun as => pure (a :: as)

/-- In a joint run the messages that one party sends are those that the other reads. -/
theorem of_lockstep {H : Type} {P : Party M G σ α} {Q : Party M H τ β} {s : σ} {g : G} {t : τ} {h : H}
    {R : (α × σ) × G → (β × τ) × H → Prop} (hP : Counts P m n) (hQ : Counts Q m' n')
    (hrun : Lockstep (P s g) (Q t h) R) : m = n' ∧ n = m' := by
  obtain ⟨l, r, x, y, hjoint, -⟩ := hrun
  have hleft := hP _ _ _ _ _ (Proc.joint_run_left hjoint)
  have hright := hQ _ _ _ _ _ (Proc.joint_run_right hjoint)
  rw [Proc.joint_sent_left hjoint, List.length_nil] at hleft
  rw [Proc.joint_sent_right hjoint, List.length_nil] at hright
  omega

end Counts

/-! ## Two parties in step -/

/-- From any two related states the parties run against each other to the end, stay related, and
return related values. -/
def Sync {M G H σ τ α β : Type} (rel : σ → τ → Prop) (P : Party M G σ α) (Q : Party M H τ β)
    (post : α → β → Prop) : Prop :=
  ∀ s t, rel s t → ∀ g h, Lockstep (P s g) (Q t h) fun x y => rel x.1.2 y.1.2 ∧ post x.1.1 y.1.1

namespace Sync

variable {M G H D σ τ σ' τ' α β α' β' γ δ : Type} {rel : σ → τ → Prop}

theorem pure {a : α} {b : β} {post : α → β → Prop} (h : post a b) :
    Sync rel (Pure.pure a : Party M G σ α) (Pure.pure b : Party M H τ β) post :=
  fun _ _ hr _ _ => Lockstep.pure ⟨hr, h⟩

theorem mono {P : Party M G σ α} {Q : Party M H τ β} {post post' : α → β → Prop}
    (h : Sync rel P Q post) (hp : ∀ a b, post a b → post' a b) : Sync rel P Q post' :=
  fun s t hr g g' => (h s t hr g g').mono fun _ _ hx => ⟨hx.1, hp _ _ hx.2⟩

theorem bind {P : Party M G σ α} {Q : Party M H τ β} {post : α → β → Prop}
    {f : α → Party M G σ α'} {k : β → Party M H τ β'} {post' : α' → β' → Prop}
    (h : Sync rel P Q post) (hf : ∀ a b, post a b → Sync rel (f a) (k b) post') :
    Sync rel (P >>= f) (Q >>= k) post' :=
  fun s t hr g g' => (h s t hr g g').bind fun _ _ hx => hf _ _ hx.2 _ _ hx.1 _ _

theorem swap {P : Party M G σ α} {Q : Party M H τ β} {post : α → β → Prop}
    (h : Sync rel P Q post) : Sync (fun t s => rel s t) Q P fun b a => post a b :=
  fun t s hr g g' => (h s t hr g' g).swap

theorem write_read {m : M} {f : Unit → Party M G σ α} {k : M → Party M H τ β}
    {post : α → β → Prop} (h : Sync rel (f ()) (k m) post) :
    Sync rel (write m >>= f) (read >>= k) post :=
  fun s t hr g g' => Lockstep.send_recv (h s t hr g g')

theorem read_write {m : M} {f : M → Party M G σ α} {k : Unit → Party M H τ β}
    {post : α → β → Prop} (h : Sync rel (f m) (k ()) post) :
    Sync rel (read >>= f) (write m >>= k) post :=
  (write_read h.swap).swap

/-! ### Steps of one side -/

theorem flush_left {f : Unit → Party M G σ α} {Q : Party M H τ β} {post : α → β → Prop}
    (h : Sync rel (f ()) Q post) : Sync rel (flush >>= f) Q post :=
  fun s t hr g g' => (h s t hr g g').flush_left

theorem flush_right {P : Party M G σ α} {k : Unit → Party M H τ β} {post : α → β → Prop}
    (h : Sync rel P (k ()) post) : Sync rel P (flush >>= k) post :=
  (flush_left h.swap).swap

theorem draw_left {f : D → Party M (Stream' D) σ α} {Q : Party M H τ β} {post : α → β → Prop}
    (h : ∀ d, Sync rel (f d) Q post) : Sync rel (draw >>= f) Q post :=
  fun s t hr g g' => h g.head s t hr g.tail g'

theorem draws_left {P : Party M G σ γ} {R : γ → Prop} {f : γ → Party M G σ α} {Q : Party M H τ β}
    {post : α → β → Prop} (hP : Draws P R) (h : ∀ c, R c → Sync rel (f c) Q post) :
    Sync rel (P >>= f) Q post := fun s t hr g g' => by
  obtain ⟨c, g₁, hrun, hc⟩ := hP s g
  rw [bind_apply, hrun, Proc.pure_bind']
  exact h c hc s t hr g₁ g'

theorem draws_right {P : Party M G σ α} {Q : Party M H τ γ} {R : γ → Prop}
    {k : γ → Party M H τ β} {post : α → β → Prop} (hQ : Draws Q R)
    (h : ∀ c, R c → Sync rel P (k c) post) : Sync rel P (Q >>= k) post :=
  (draws_left hQ fun c hc => (h c hc).swap).swap

theorem assert_left {c : Prop} [Decidable c] {e : String} (hc : c) {f : Unit → Party M G σ α}
    {Q : Party M H τ β} {post : α → β → Prop} (h : Sync rel (f ()) Q post) :
    Sync rel (Party.assert c e >>= f) Q post := by
  rw [assert_true hc, pure_bind]
  exact h

theorem assert_right {c : Prop} [Decidable c] {e : String} (hc : c) {P : Party M G σ α}
    {k : Unit → Party M H τ β} {post : α → β → Prop} (h : Sync rel P (k ()) post) :
    Sync rel P (Party.assert c e >>= k) post := by
  rw [assert_true hc, pure_bind]
  exact h

theorem asserts {c d : Prop} [Decidable c] [Decidable d] {e e' : String} (hc : c) (hd : d) :
    Sync rel (Party.assert c e : Party M G σ Unit) (Party.assert d e' : Party M H τ Unit)
      fun _ _ => True := by
  rw [assert_true hc, assert_true hd]
  exact pure trivial

theorem get_right {P : Party M G σ α} {k : τ → Party M H τ β} {post : α → β → Prop}
    (h : ∀ s t, rel s t → Sync rel P (k t) post) : Sync rel P (get >>= k) post :=
  fun s t hr g g' => h s t hr s t hr g g'

theorem and_run {P : Party M G σ α} {Q : Party M H τ β} {post : α → β → Prop} {S : α → Prop}
    (h : Sync rel P Q post)
    (hP : ∀ s g inbox x rest, Proc.run (P s g) inbox = some (x, rest) → S x.1.1) :
    Sync rel P Q fun a b => post a b ∧ S a := fun s t hr g g' => by
  obtain ⟨l, r, x, y, hj, hrel, hpost⟩ := h s t hr g g'
  exact ⟨l, r, x, y, hj, hrel, hpost, hP _ _ _ _ _ (Proc.joint_run_left hj)⟩

theorem gets {f : σ → Party M G σ α} {k : τ → Party M H τ β} {post : α → β → Prop}
    (h : ∀ s t, rel s t → Sync rel (f s) (k t) post) : Sync rel (get >>= f) (get >>= k) post :=
  fun s t hr g g' => h s t hr s t hr g g'

theorem act {f : σ → α × σ} {k : τ → β × τ} {post : α → β → Prop}
    (h : ∀ s t, rel s t → rel (f s).2 (k t).2 ∧ post (f s).1 (k t).1) :
    Sync rel (Party.act f : Party M G σ α) (Party.act k : Party M H τ β) post :=
  fun s t hr _ _ => Lockstep.pure (h s t hr)

theorem zoom {rel' : σ' → τ' → Prop} {L : Lens σ' σ} {K : Lens τ' τ} {P : Party M G σ α}
    {Q : Party M H τ β} {post : α → β → Prop} (h : Sync rel P Q post)
    (hget : ∀ s t, rel' s t → rel (L.get s) (K.get t))
    (hset : ∀ s t a b, rel' s t → rel a b → rel' (L.set a s) (K.set b t)) :
    Sync rel' (Party.zoom L P) (Party.zoom K Q) post :=
  fun s t hr g g' => (h _ _ (hget s t hr) g g').bind fun _ _ hx =>
    Lockstep.pure ⟨hset _ _ _ _ hr hx.1, hx.2⟩

theorem silent {P : Party M G σ α} {Q : Party M H τ β} {post : α → β → Prop}
    (h : ∀ s t, rel s t → ∃ a s' b t', Silent P s a s' ∧ Silent Q t b t' ∧ rel s' t' ∧ post a b) :
    Sync rel P Q post := fun s t hr g g' => by
  obtain ⟨a, s', b, t', hP, hQ, hr', hp⟩ := h s t hr
  rw [hP g, hQ g']
  exact Lockstep.pure ⟨hr', hp⟩

theorem zoom_right {rel' : σ → τ' → Prop} {K : Lens τ' τ} {P : Party M G σ α} {Q : Party M H τ β}
    {post : α → β → Prop} (h : Sync rel P Q post)
    (hget : ∀ s t, rel' s t → rel s (K.get t))
    (hset : ∀ s t a b, rel' s t → rel a b → rel' a (K.set b t)) :
    Sync rel' P (Party.zoom K Q) post := fun s t hr g g' => by
  rw [← Proc.bind_pure' (P s g)]
  exact (h _ _ (hget s t hr) g g').bind fun _ _ hx => Lockstep.pure ⟨hset _ _ _ _ hr hx.1, hx.2⟩

/-! ### Loops -/

theorem mapM {R : γ → δ → Prop} {post : α → β → Prop} {f : γ → Party M G σ α}
    {k : δ → Party M H τ β} (h : ∀ c d, R c d → Sync rel (f c) (k d) post) {xs : List γ}
    {ys : List δ} (hxy : List.Forall₂ R xs ys) :
    Sync rel (xs.mapM f) (ys.mapM k) (List.Forall₂ post) := by
  induction hxy with
  | nil => exact pure .nil
  | cons hcd _ ih =>
    rw [List.mapM_cons, List.mapM_cons]
    exact (h _ _ hcd).bind fun a b hab => ih.bind fun as bs habs => pure (.cons hab habs)

theorem mapM_range {n : ℕ} {f : ℕ → Party M G σ α} {k : ℕ → Party M H τ β}
    (h : ∀ i < n, Sync rel (f i) (k i) fun _ _ => True) :
    Sync rel ((List.range n).mapM f) ((List.range n).mapM k) fun _ _ => True := by
  have hrange : List.Forall₂ (fun i j => i = j ∧ i < n) (List.range n) (List.range n) :=
    List.forall₂_same.2 fun _ hi => ⟨rfl, List.mem_range.1 hi⟩
  have hstep : ∀ i j, i = j ∧ i < n → Sync rel (f i) (k j) fun _ _ => True := by
    rintro i _ ⟨rfl, hi⟩
    exact h i hi
  exact (mapM hstep hrange).mono fun _ _ _ => trivial

/-- The same, when what the right party returns is a function of what the left one is given and
returns. -/
theorem mapM_zipWith {R : γ → δ → Prop} {F : γ → α → β} {S : γ → α → Prop}
    {f : γ → Party M G σ α} {k : δ → Party M H τ β}
    (h : ∀ c d, R c d → Sync rel (f c) (k d) fun a b => b = F c a ∧ S c a) {xs : List γ}
    {ys : List δ} (hxy : List.Forall₂ R xs ys) :
    Sync rel (xs.mapM f) (ys.mapM k) fun as bs =>
      bs = List.zipWith F xs as ∧ List.Forall₂ S xs as := by
  induction hxy with
  | nil => exact pure ⟨rfl, .nil⟩
  | cons hcd _ ih =>
    rw [List.mapM_cons, List.mapM_cons]
    refine (h _ _ hcd).bind fun a b hab => ih.bind fun as bs habs => pure ?_
    exact ⟨by rw [hab.1, habs.1, List.zipWith_cons_cons], .cons hab.2 habs.2⟩

theorem mapM_map {R : γ → δ → Prop} {F : α → β} {S : α → Prop} {f : γ → Party M G σ α}
    {k : δ → Party M H τ β}
    (h : ∀ c d, R c d → Sync rel (f c) (k d) fun a b => b = F a ∧ S a) {xs : List γ}
    {ys : List δ} (hxy : List.Forall₂ R xs ys) :
    Sync rel (xs.mapM f) (ys.mapM k) fun as bs =>
      as.length = xs.length ∧ bs = as.map F ∧ ∀ a ∈ as, S a := by
  induction hxy with
  | nil => exact pure ⟨rfl, rfl, by simp⟩
  | cons hcd _ ih =>
    rw [List.mapM_cons, List.mapM_cons]
    refine (h _ _ hcd).bind fun a b hab => ih.bind fun as bs habs => pure ?_
    obtain ⟨hlen, hmap, hall⟩ := habs
    exact ⟨by simp [hlen], by rw [hab.1, hmap, List.map_cons],
      List.forall_mem_cons.2 ⟨hab.2, hall⟩⟩

theorem foldlM {R : γ → δ → Prop} {inv : α → β → Prop} {f : α → γ → Party M G σ α}
    {k : β → δ → Party M H τ β}
    (h : ∀ a b c d, inv a b → R c d → Sync rel (f a c) (k b d) inv) {xs : List γ} {ys : List δ}
    (hxy : List.Forall₂ R xs ys) {a : α} {b : β} (hab : inv a b) :
    Sync rel (xs.foldlM f a) (ys.foldlM k b) inv := by
  induction hxy generalizing a b with
  | nil => exact pure hab
  | cons hcd _ ih =>
    rw [List.foldlM_cons, List.foldlM_cons]
    exact (h _ _ _ _ hab hcd).bind fun a b hab => ih hab

theorem foldlM_sum {A B : Type} [AddMonoid A] [AddMonoid B] {f : A → γ → Party M G σ A}
    {k : B → γ → Party M H τ B} {F : γ → A} {K : γ → B} {xs : List γ}
    (h : ∀ c ∈ xs, ∀ a b, Sync rel (f a c) (k b c) fun a' b' => a' = a + F c ∧ b' = b + K c)
    (a : A) (b : B) :
    Sync rel (xs.foldlM f a) (xs.foldlM k b) fun a' b' =>
      a' = a + (xs.map F).sum ∧ b' = b + (xs.map K).sum := by
  induction xs generalizing a b with
  | nil => exact pure ⟨by simp, by simp⟩
  | cons c xs ih =>
    rw [List.foldlM_cons, List.foldlM_cons]
    refine (h c List.mem_cons_self a b).bind ?_
    rintro a₁ b₁ ⟨rfl, rfl⟩
    refine (ih (fun d hd => h d (List.mem_cons_of_mem _ hd)) _ _).mono ?_
    rintro a₂ b₂ ⟨rfl, rfl⟩
    exact ⟨by simp [add_assoc], by simp [add_assoc]⟩

end Sync

end Party

end Interaction
