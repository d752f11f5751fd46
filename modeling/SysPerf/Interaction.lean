import SysPerf.Machine

namespace SysPerf

/-- A program that writes to a device and makes calls, of which those with an answer decide how it
goes on. -/
inductive Program (ι α ω : Type)
  | halt
  | undefined
  | emit (o : ω) (next : Program ι α ω)
  | act (i : ι) (next : Program ι α ω)
  | ask (i : ι) (next : α → Program ι α ω)

namespace Program

variable {ι α ω σ ε : Type}

inductive Event (ι α ω : Type)
  | emitted (o : ω)
  | acted (i : ι)
  | answered (i : ι) (a : α)

def Event.emit? : Event ι α ω → Option ω
  | .emitted o => some o
  | .acted _ => none
  | .answered _ _ => none

def Event.answer? : Event ι α ω → Option (ι × α)
  | .emitted _ => none
  | .acted _ => none
  | .answered i a => some (i, a)

def emits (tr : List (Event ι α ω)) : List ω :=
  tr.filterMap Event.emit?

def asked (tr : List (Event ι α ω)) : List ι :=
  (tr.filterMap Event.answer?).map Prod.fst

def answers (tr : List (Event ι α ω)) : List α :=
  (tr.filterMap Event.answer?).map Prod.snd

@[simp] theorem emits_append (tr out : List (Event ι α ω)) :
    emits (tr ++ out) = emits tr ++ emits out := by
  simp [emits]

@[simp] theorem asked_append (tr out : List (Event ι α ω)) :
    asked (tr ++ out) = asked tr ++ asked out := by
  simp [asked]

@[simp] theorem answers_append (tr out : List (Event ι α ω)) :
    answers (tr ++ out) = answers tr ++ answers out := by
  simp [answers]

section

variable (tr : List (Event ι α ω)) (o : ω) (i : ι) (a : α)

@[simp] theorem emits_nil : emits ([] : List (Event ι α ω)) = [] := rfl

@[simp] theorem emits_emitted : emits (.emitted o :: tr) = o :: emits tr := rfl

@[simp] theorem emits_acted : emits (.acted i :: tr) = emits tr := rfl

@[simp] theorem emits_answered : emits (.answered i a :: tr) = emits tr := rfl

@[simp] theorem asked_nil : asked ([] : List (Event ι α ω)) = [] := rfl

@[simp] theorem asked_emitted : asked (.emitted o :: tr) = asked tr := rfl

@[simp] theorem asked_acted : asked (.acted i :: tr) = asked tr := rfl

@[simp] theorem asked_answered : asked (.answered i a :: tr) = i :: asked tr := rfl

@[simp] theorem answers_nil : answers ([] : List (Event ι α ω)) = [] := rfl

@[simp] theorem answers_emitted : answers (.emitted o :: tr) = answers tr := rfl

@[simp] theorem answers_acted : answers (.acted i :: tr) = answers tr := rfl

@[simp] theorem answers_answered : answers (.answered i a :: tr) = a :: answers tr := rfl

end

@[simp] theorem emits_map_emitted (os : List ω) :
    emits (os.map .emitted : List (Event ι α ω)) = os := by
  induction os with
  | nil => rfl
  | cons o os ih => simpa using ih

@[simp] theorem asked_map_emitted (os : List ω) :
    asked (os.map .emitted : List (Event ι α ω)) = [] := by
  induction os with
  | nil => rfl
  | cons o os ih => simpa using ih

@[simp] theorem emits_map_answered (i : ι) (given : List α) :
    emits (given.map (.answered i) : List (Event ι α ω)) = [] := by
  induction given with
  | nil => rfl
  | cons a given ih => simpa using ih

@[simp] theorem asked_map_answered (i : ι) (given : List α) :
    asked (given.map (.answered i) : List (Event ι α ω)) = List.replicate given.length i := by
  induction given with
  | nil => rfl
  | cons a given ih => simpa [List.replicate_succ] using ih

theorem length_asked (tr : List (Event ι α ω)) : (asked tr).length = (answers tr).length := by
  simp [asked, answers]

/-- What a program does with the given answers, and the rest of it once there is none for its next
call. -/
def play : Program ι α ω → List α → List (Event ι α ω) × Program ι α ω
  | .halt, _ => ([], .halt)
  | .undefined, _ => ([], .undefined)
  | .emit o next, given =>
    let r := next.play given
    (.emitted o :: r.1, r.2)
  | .act i next, given =>
    let r := next.play given
    (.acted i :: r.1, r.2)
  | .ask i next, [] => ([], .ask i next)
  | .ask i next, a :: given =>
    let r := (next a).play given
    (.answered i a :: r.1, r.2)

inductive Move (α ε : Type)
  | act
  | answer (a : α)
  | device (e : ε)

/-- A program together with its device, which takes what the program emits at a move of its own and
may also move in silence. -/
def attach [DecidableEq ω] (p : Program ι α ω) (dev : Machine σ ε ω) :
    Machine (Program ι α ω × σ) (Move α ε) (Event ι α ω) where
  init := (p, dev.init)
  step s
    | .act =>
      match s.1 with
      | .act i next => some ((next, s.2), [.acted i])
      | _ => none
    | .answer a =>
      match s.1 with
      | .ask i next => some ((next a, s.2), [.answered i a])
      | _ => none
    | .device e =>
      match s.1, dev.step s.2 e with
      | _, some (t, []) => some ((s.1, t), [])
      | .emit o next, some (t, [seen]) =>
        if seen = o then some ((next, t), [.emitted o]) else none
      | _, _ => none

/-- The moves of a program with a device. -/
inductive Moves (dev : Machine σ ε ω) :
    Program ι α ω × σ → Program ι α ω × σ → List (Event ι α ω) → Prop
  | acts (i : ι) (next : Program ι α ω) (s : σ) : Moves dev (.act i next, s) (next, s) [.acted i]
  | answers (i : ι) (next : α → Program ι α ω) (a : α) (s : σ) :
    Moves dev (.ask i next, s) (next a, s) [.answered i a]
  | silent {q : Program ι α ω} {s t : σ} {e : ε} (h : dev.step s e = some (t, [])) :
    Moves dev (q, s) (q, t) []
  | emits {o : ω} {next : Program ι α ω} {s t : σ} {e : ε} (h : dev.step s e = some (t, [o])) :
    Moves dev (.emit o next, s) (next, t) [.emitted o]

variable [DecidableEq ω] {p : Program ι α ω} {dev : Machine σ ε ω}

theorem attach_moves {s t : Program ι α ω × σ} {e : Move α ε} {out : List (Event ι α ω)}
    (h : (attach p dev).step s e = some (t, out)) : Moves dev s t out := by
  obtain ⟨q, s⟩ := s
  cases e with
  | act =>
    cases q with
    | act i next =>
      obtain ⟨rfl, rfl⟩ := Prod.mk.inj (Option.some.inj h)
      exact .acts i next s
    | _ => simp [attach] at h
  | answer a =>
    cases q with
    | ask i next =>
      obtain ⟨rfl, rfl⟩ := Prod.mk.inj (Option.some.inj h)
      exact .answers i next a s
    | _ => simp [attach] at h
  | device e =>
    simp only [attach] at h
    split at h
    next t' hdev =>
      obtain ⟨rfl, rfl⟩ := Prod.mk.inj (Option.some.inj h)
      exact .silent hdev
    next o next t' seen hdev =>
      obtain ⟨rfl, heq⟩ := Option.ite_none_right_eq_some.mp h
      obtain ⟨rfl, rfl⟩ := Prod.mk.inj (Option.some.inj heq)
      exact .emits hdev
    next => simp at h

/-- The device sees what the program emits and nothing else. -/
theorem reach_device {tr : List (Event ι α ω)} {q : Program ι α ω} {s : σ}
    (h : Reach (attach p dev) tr (q, s)) : Reach dev (emits tr) s := by
  refine h.history (P := fun tr s => Reach dev (emits tr) s.2) Reach.init ?_
  intro tr s e t out hs hstep
  rw [emits_append]
  cases attach_moves hstep with
  | acts i next s => simpa using hs
  | answers i next a s => simpa using hs
  | silent hdev => simpa using hs.step hdev
  | emits hdev => simpa using hs.step hdev

/-- The rest of the program does with further answers what the program does with these behind those
it had. -/
theorem reach_play {tr : List (Event ι α ω)} {q : Program ι α ω} {s : σ}
    (h : Reach (attach p dev) tr (q, s)) (more : List α) :
    p.play (answers tr ++ more) = (tr ++ (q.play more).1, (q.play more).2) := by
  refine h.history (P := fun tr s => ∀ more, p.play (answers tr ++ more) =
    (tr ++ (s.1.play more).1, (s.1.play more).2)) (fun more => rfl) ?_ more
  intro tr s e t out hs hstep more
  rw [answers_append]
  cases attach_moves hstep with
  | acts i next s => simpa [play] using hs more
  | answers i next a s => simpa [play] using hs (a :: more)
  | silent hdev => simpa using hs more
  | emits hdev => simpa [play] using hs more

/-- The program can do nothing more without an answer. -/
def Waits : Program ι α ω → Prop
  | .halt => True
  | .undefined => True
  | .emit _ _ => False
  | .act _ _ => False
  | .ask _ _ => True

/-- Where a program waits, its answers alone say what it has done. -/
theorem reach_waits {tr : List (Event ι α ω)} {q : Program ι α ω} {s : σ}
    (h : Reach (attach p dev) tr (q, s)) (hq : q.Waits) : p.play (answers tr) = (tr, q) := by
  have hplay := reach_play h []
  rw [List.append_nil] at hplay
  rw [hplay]
  cases q with
  | halt => simp [play]
  | undefined => simp [play]
  | emit o next => exact hq.elim
  | act i next => exact hq.elim
  | ask i next => simp [play]

end Program

end SysPerf
