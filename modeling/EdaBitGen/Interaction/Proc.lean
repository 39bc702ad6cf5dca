import Mathlib

/-!
# Interactive programs

`Proc M α` is the tree of a program that sends and receives messages of type `M` over one channel
and ends with a value of type `α` or with an error.  `joint P Q` runs two such programs against
each other, `run P inbox` runs one of them on a fixed list of incoming messages, and
`joint_run_left` and `joint_run_right` relate the two.
-/

namespace Interaction

/-- A program that exchanges messages of type `M` and returns a value of type `α`. -/
inductive Proc (M α : Type) where
  | pure (a : α)
  | fail (e : String)
  | send (m : M) (k : Proc M α)
  | recv (k : M → Proc M α)
  | flush (k : Proc M α)

namespace Proc

variable {M α β γ : Type}

/-- Sequential composition: an error stops the program. -/
protected def bind (f : α → Proc M β) : Proc M α → Proc M β
  | pure a => f a
  | fail e => fail e
  | send m k => send m (k.bind f)
  | recv k => recv fun m => (k m).bind f
  | flush k => flush (k.bind f)

instance : Monad (Proc M) where
  pure := Proc.pure
  bind P f := P.bind f

@[simp] theorem pure_bind' (a : α) (f : α → Proc M β) : (Proc.pure a >>= f) = f a := (rfl)

@[simp] theorem send_bind (m : M) (k : Proc M α) (f : α → Proc M β) :
    (Proc.send m k >>= f) = Proc.send m (k >>= f) := (rfl)

@[simp] theorem recv_bind (k : M → Proc M α) (f : α → Proc M β) :
    (Proc.recv k >>= f) = Proc.recv fun m => k m >>= f := (rfl)

@[simp] theorem flush_bind (k : Proc M α) (f : α → Proc M β) :
    (Proc.flush k >>= f) = Proc.flush (k >>= f) := (rfl)

theorem bind_pure' (P : Proc M α) : (P >>= Proc.pure) = P := by
  induction P with
  | pure a => rfl
  | fail e => rfl
  | send m k ih => rw [send_bind, ih]
  | recv k ih => rw [recv_bind]; exact congrArg Proc.recv (funext ih)
  | flush k ih => rw [flush_bind, ih]

theorem bind_assoc' (P : Proc M α) (f : α → Proc M β) (g : β → Proc M γ) :
    (P >>= f >>= g) = (P >>= fun a => f a >>= g) := by
  induction P with
  | pure a => rfl
  | fail e => rfl
  | send m k ih => simp only [send_bind, ih]
  | recv k ih => simp only [recv_bind, ih]
  | flush k ih => simp only [flush_bind, ih]

instance : LawfulMonad (Proc M) :=
  LawfulMonad.mk' (Proc M) bind_pure' (fun _ _ => rfl) bind_assoc'

/-! ## One program on a list of incoming messages -/

/-- The result of a program and the messages it leaves unread, when it neither fails nor waits for
a message that is not there. -/
def run : Proc M α → List M → Option (α × List M)
  | pure a, inbox => some (a, inbox)
  | fail _, _ => none
  | send _ k, inbox => run k inbox
  | recv k, inbox =>
    match inbox with
    | [] => none
    | m :: inbox => run (k m) inbox
  | flush k, inbox => run k inbox

/-- The messages a program sends on a list of incoming messages, up to its end, its error or the
first message it misses. -/
def sent : Proc M α → List M → List M
  | pure _, _ => []
  | fail _, _ => []
  | send m k, inbox => m :: sent k inbox
  | recv k, inbox =>
    match inbox with
    | [] => []
    | m :: inbox => sent (k m) inbox
  | flush k, inbox => sent k inbox

@[simp] theorem run_pure (a : α) (inbox : List M) : run (Proc.pure a) inbox = some (a, inbox) := (rfl)

@[simp] theorem run_fail (e : String) (inbox : List M) :
    run (Proc.fail e : Proc M α) inbox = none := (rfl)

@[simp] theorem run_send (m : M) (k : Proc M α) (inbox : List M) :
    run (Proc.send m k) inbox = run k inbox := (rfl)

@[simp] theorem run_flush (k : Proc M α) (inbox : List M) :
    run (Proc.flush k) inbox = run k inbox := (rfl)

@[simp] theorem run_recv_cons (k : M → Proc M α) (m : M) (inbox : List M) :
    run (Proc.recv k) (m :: inbox) = run (k m) inbox := (rfl)

@[simp] theorem run_recv_nil (k : M → Proc M α) : run (Proc.recv k) [] = none := (rfl)

theorem run_bind (P : Proc M α) (f : α → Proc M β) (inbox : List M) :
    run (P >>= f) inbox = (run P inbox).bind fun x => run (f x.1) x.2 := by
  induction P generalizing inbox with
  | pure a => rfl
  | fail e => rfl
  | send m k ih => exact ih inbox
  | recv k ih =>
    cases inbox with
    | nil => rfl
    | cons m inbox => exact ih m inbox
  | flush k ih => exact ih inbox

theorem run_bind_eq_some {P : Proc M α} {f : α → Proc M β} {inbox rest : List M} {b : β} :
    run (P >>= f) inbox = some (b, rest) ↔
      ∃ a mid, run P inbox = some (a, mid) ∧ run (f a) mid = some (b, rest) := by
  rw [run_bind, Option.bind_eq_some_iff]
  constructor
  · rintro ⟨⟨a, mid⟩, ha, hb⟩
    exact ⟨a, mid, ha, hb⟩
  · rintro ⟨a, mid, ha, hb⟩
    exact ⟨(a, mid), ha, hb⟩

theorem sent_bind {P : Proc M α} {f : α → Proc M β} {inbox rest : List M} {a : α}
    (h : run P inbox = some (a, rest)) :
    sent (P >>= f) inbox = sent P inbox ++ sent (f a) rest := by
  induction P generalizing inbox with
  | pure b =>
    rw [run_pure, Option.some.injEq, Prod.mk.injEq] at h
    obtain ⟨rfl, rfl⟩ := h
    rfl
  | fail e => simp at h
  | send m k ih => exact congrArg (m :: ·) (ih h)
  | recv k ih =>
    cases inbox with
    | nil => simp at h
    | cons m inbox => exact ih m h
  | flush k ih => exact ih h

theorem run_append {P : Proc M α} {inbox rest : List M} {a : α} (h : run P inbox = some (a, rest))
    (more : List M) : run P (inbox ++ more) = some (a, rest ++ more) := by
  induction P generalizing inbox with
  | pure b =>
    simp only [run_pure, Option.some.injEq, Prod.mk.injEq] at h ⊢
    exact ⟨h.1, by rw [h.2]⟩
  | fail e => simp at h
  | send m k ih => exact ih h
  | recv k ih =>
    cases inbox with
    | nil => simp at h
    | cons m inbox => exact ih m h
  | flush k ih => exact ih h

/-! ## Two programs against each other -/

/-- Skip the flushes a program starts with. -/
def settle : Proc M α → Proc M α
  | flush k => settle k
  | P => P

/-- How a joint run of two programs ends: both have ended, and the messages that went to the left
and to the right are recorded, or both wait. -/
inductive Outcome (M α β : Type) where
  | ended (toLeft toRight : List M) (left : Except String α) (right : Except String β)
  | stuck

namespace Outcome

/-- Record a message that went to the right. -/
def sentRight (m : M) : Outcome M α β → Outcome M α β
  | ended l r a b => ended l (m :: r) a b
  | stuck => stuck

/-- Record a message that went to the left. -/
def sentLeft (m : M) : Outcome M α β → Outcome M α β
  | ended l r a b => ended (m :: l) r a b
  | stuck => stuck

/-- The outcome after the messages `l` went to the left and `r` to the right. -/
def after (l r : List M) : Outcome M α β → Outcome M α β
  | ended l' r' a b => ended (l ++ l') (r ++ r') a b
  | stuck => stuck

/-- The same outcome with the two sides exchanged. -/
def swap : Outcome M α β → Outcome M β α
  | ended l r a b => ended r l b a
  | stuck => stuck

/-- Both sides have ended without an error. -/
def completes : Outcome M α β → Bool
  | ended _ _ (.ok _) (.ok _) => true
  | _ => false

@[simp] theorem swap_sentRight (m : M) (o : Outcome M α β) :
    (o.sentRight m).swap = o.swap.sentLeft m := by cases o <;> rfl

@[simp] theorem swap_sentLeft (m : M) (o : Outcome M α β) :
    (o.sentLeft m).swap = o.swap.sentRight m := by cases o <;> rfl

@[simp] theorem after_nil (o : Outcome M α β) : o.after [] [] = o := by cases o <;> rfl

theorem sentRight_after (m : M) (l r : List M) (o : Outcome M α β) :
    (o.after l r).sentRight m = o.after l (m :: r) := by cases o <;> rfl

theorem sentLeft_after (m : M) (l r : List M) (o : Outcome M α β) :
    (o.after l r).sentLeft m = o.after (m :: l) r := by cases o <;> rfl

theorem sentRight_eq_ended {m : M} {o : Outcome M α β} {l r : List M} {a : Except String α}
    {b : Except String β} :
    o.sentRight m = .ended l r a b ↔ ∃ r', r = m :: r' ∧ o = .ended l r' a b := by
  cases o <;> simp [sentRight, eq_comm, and_left_comm]

theorem sentLeft_eq_ended {m : M} {o : Outcome M α β} {l r : List M} {a : Except String α}
    {b : Except String β} :
    o.sentLeft m = .ended l r a b ↔ ∃ l', l = m :: l' ∧ o = .ended l' r a b := by
  cases o <;> simp [sentLeft, eq_comm, and_left_comm]

end Outcome

/-- Run two programs against each other, delivering each message as it is sent. -/
def joint : Proc M α → Proc M β → Outcome M α β
  | flush P, Q => joint P Q
  | pure a, Q =>
    match settle Q with
    | pure b => .ended [] [] (.ok a) (.ok b)
    | fail e => .ended [] [] (.ok a) (.error e)
    | _ => .stuck
  | fail e, Q =>
    match settle Q with
    | pure b => .ended [] [] (.error e) (.ok b)
    | fail e' => .ended [] [] (.error e) (.error e')
    | _ => .stuck
  | send m P, Q =>
    match settle Q with
    | recv k => (joint P (k m)).sentRight m
    | _ => .stuck
  | recv k, Q =>
    match settle Q with
    | send m Q => (joint (k m) Q).sentLeft m
    | _ => .stuck

@[simp] theorem joint_flush_left (P : Proc M α) (Q : Proc M β) :
    joint (flush P) Q = joint P Q := rfl

@[simp] theorem joint_pure_pure (a : α) (b : β) :
    joint (pure a : Proc M α) (pure b) = .ended [] [] (.ok a) (.ok b) := rfl

@[simp] theorem joint_send_recv (m : M) (P : Proc M α) (k : M → Proc M β) :
    joint (send m P) (recv k) = (joint P (k m)).sentRight m := rfl

@[simp] theorem joint_recv_send (k : M → Proc M α) (m : M) (Q : Proc M β) :
    joint (recv k) (send m Q) = (joint (k m) Q).sentLeft m := rfl

@[simp] theorem joint_flush_right (P : Proc M α) (Q : Proc M β) :
    joint P (flush Q) = joint P Q := by
  induction P with
  | flush P ih => exact ih
  | pure a => rfl
  | fail e => rfl
  | send m P _ => rfl
  | recv k _ => simp only [joint, settle]

theorem joint_swap (P : Proc M α) (Q : Proc M β) : joint Q P = (joint P Q).swap := by
  induction P generalizing Q with
  | flush P ih => rw [joint_flush_right, ih, joint_flush_left]
  | pure a =>
    induction Q with
    | flush Q ih => rw [joint_flush_left, ih, joint_flush_right]
    | _ => rfl
  | fail e =>
    induction Q with
    | flush Q ih => rw [joint_flush_left, ih, joint_flush_right]
    | _ => rfl
  | send m P ihP =>
    induction Q with
    | flush Q ih => rw [joint_flush_left, ih, joint_flush_right]
    | recv k _ => rw [joint_send_recv, joint_recv_send, ihP, Outcome.swap_sentRight]
    | _ => rfl
  | recv k ihP =>
    induction Q with
    | flush Q ih => rw [joint_flush_left, ih, joint_flush_right]
    | send m Q _ => rw [joint_send_recv, joint_recv_send, ihP, Outcome.swap_sentLeft]
    | _ => rfl

/-- In a joint run the left program sends the messages that went to the right, however it ends. -/
theorem joint_sent_left {P : Proc M α} {Q : Proc M β} {l r : List M} {a : Except String α}
    {b : Except String β} (h : joint P Q = .ended l r a b) : sent P l = r := by
  induction P generalizing Q l r with
  | flush P ih => exact ih h
  | pure a' =>
    simp only [joint] at h
    split at h <;> simp only [Outcome.ended.injEq, reduceCtorEq] at h
    all_goals
      obtain ⟨rfl, rfl, -⟩ := h
      rfl
  | fail e =>
    simp only [joint] at h
    split at h <;> simp only [Outcome.ended.injEq, reduceCtorEq] at h
    all_goals
      obtain ⟨rfl, rfl, -⟩ := h
      rfl
  | send m P ih =>
    simp only [joint] at h
    split at h
    · obtain ⟨r', rfl, h'⟩ := Outcome.sentRight_eq_ended.1 h
      rw [sent, ih h']
    · cases h
  | recv k ih =>
    simp only [joint] at h
    split at h
    · obtain ⟨l', rfl, h'⟩ := Outcome.sentLeft_eq_ended.1 h
      exact ih _ h'
    · cases h

/-- In a joint run the left program runs on the messages that went to it, and reads them all. -/
theorem joint_run_left {P : Proc M α} {Q : Proc M β} {l r : List M} {a : α} {b : Except String β}
    (h : joint P Q = .ended l r (.ok a) b) : run P l = some (a, []) := by
  induction P generalizing Q l r with
  | flush P ih => exact ih h
  | pure a' =>
    simp only [joint] at h
    split at h <;> simp only [Outcome.ended.injEq, Except.ok.injEq, reduceCtorEq] at h
    all_goals
      obtain ⟨rfl, rfl, rfl, -⟩ := h
      rfl
  | fail e =>
    simp only [joint] at h
    split at h <;> simp at h
  | send m P ih =>
    simp only [joint] at h
    split at h
    · obtain ⟨r', rfl, h'⟩ := Outcome.sentRight_eq_ended.1 h
      exact ih h'
    · cases h
  | recv k ih =>
    simp only [joint] at h
    split at h
    · obtain ⟨l', rfl, h'⟩ := Outcome.sentLeft_eq_ended.1 h
      exact ih _ h'
    · cases h

theorem joint_sent_right {P : Proc M α} {Q : Proc M β} {l r : List M} {a : Except String α}
    {b : Except String β} (h : joint P Q = .ended l r a b) : sent Q r = l := by
  have h' : joint Q P = .ended r l b a := by rw [joint_swap P Q, h]; rfl
  exact joint_sent_left h'

theorem joint_run_right {P : Proc M α} {Q : Proc M β} {l r : List M} {a : Except String α} {b : β}
    (h : joint P Q = .ended l r a (.ok b)) : run Q r = some (b, []) := by
  have h' : joint Q P = .ended r l (.ok b) a := by rw [joint_swap P Q, h]; rfl
  exact joint_run_left h'

/-- Joint runs compose: when the first parts both end with a value, the second parts run on. -/
theorem joint_bind_eq {P : Proc M α} {Q : Proc M β} {l r : List M} {a : α} {b : β}
    (h : joint P Q = .ended l r (.ok a) (.ok b)) {α' β' : Type} (f : α → Proc M α')
    (g : β → Proc M β') :
    joint (P >>= f) (Q >>= g) = (joint (f a) (g b)).after l r := by
  induction P generalizing Q l r with
  | flush P ih => exact ih h
  | pure a' =>
    induction Q with
    | flush Q ih => rw [flush_bind, joint_flush_right]; exact ih (by rwa [joint_flush_right] at h)
    | pure b' =>
      simp only [joint_pure_pure, Outcome.ended.injEq, Except.ok.injEq] at h
      obtain ⟨rfl, rfl, rfl, rfl⟩ := h
      rw [Outcome.after_nil]
      rfl
    | fail e => simp [joint, settle] at h
    | send m Q _ => simp [joint, settle] at h
    | recv k _ => simp [joint, settle] at h
  | fail e =>
    simp only [joint] at h
    split at h <;> simp at h
  | send m P ihP =>
    induction Q with
    | flush Q ih => rw [flush_bind, joint_flush_right]; exact ih (by rwa [joint_flush_right] at h)
    | recv k _ =>
      obtain ⟨r'', rfl, h''⟩ := Outcome.sentRight_eq_ended.1 h
      rw [send_bind, recv_bind, joint_send_recv, ihP h'', Outcome.sentRight_after]
    | pure b' => simp [joint, settle] at h
    | fail e => simp [joint, settle] at h
    | send m Q _ => simp [joint, settle] at h
  | recv k ihP =>
    induction Q with
    | flush Q ih => rw [flush_bind, joint_flush_right]; exact ih (by rwa [joint_flush_right] at h)
    | send m Q _ =>
      obtain ⟨l'', rfl, h''⟩ := Outcome.sentLeft_eq_ended.1 h
      rw [send_bind, recv_bind, joint_recv_send, ihP _ h'', Outcome.sentLeft_after]
    | pure b' => simp [joint, settle] at h
    | fail e => simp [joint, settle] at h
    | recv k _ => simp [joint, settle] at h

theorem joint_bind {P : Proc M α} {Q : Proc M β} {l r : List M} {a : α} {b : β}
    (h : joint P Q = .ended l r (.ok a) (.ok b)) {α' β' : Type} (f : α → Proc M α')
    (g : β → Proc M β') {l' r' : List M} {x : Except String α'} {y : Except String β'}
    (h' : joint (f a) (g b) = .ended l' r' x y) :
    joint (P >>= f) (Q >>= g) = .ended (l ++ l') (r ++ r') x y := by
  rw [joint_bind_eq h, h']
  rfl

end Proc

end Interaction
