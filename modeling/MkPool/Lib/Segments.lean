import Mathlib.Data.List.Basic
import Mathlib.Tactic.Tauto

/-! # Incremental readers

A reader looks at the input it holds and either waits for more, takes something
off the front, or stops for good. A reader that decides the same whatever
follows gives the same results however its input is cut. -/
namespace MkPool.Lib.Segments

/-- What a reader does next. `need` elements more settle nothing earlier. -/
inductive Turn (σ β α : Type) where
  | wait (need : Nat)
  | go (out : Option α) (s : σ) (rest : List β)
  | halt (out : Option α) (s : σ) (rest : List β)

/-- The same turn of a reader that is a part of another. -/
def Turn.map {σ τ β α : Type} (f : σ → τ) : Turn σ β α → Turn τ β α
  | .wait n => .wait n
  | .go o s rest => .go o (f s) rest
  | .halt o s rest => .halt o (f s) rest

/-- The turn with more input behind. -/
def Turn.append {σ β α : Type} (more : List β) : Turn σ β α → Turn σ β α
  | .wait n => .wait n
  | .go o s rest => .go o s (rest ++ more)
  | .halt o s rest => .halt o s (rest ++ more)

/-- What the turn gives out. -/
def Turn.out {σ β α : Type} : Turn σ β α → Option α
  | .wait _ => none
  | .go o _ _ => o
  | .halt o _ _ => o

/-- Wait until `n` elements are there, then look at them. -/
def await {σ β α : Type} (n : Nat) (bs : List β) (k : List β → Turn σ β α) : Turn σ β α :=
  if bs.length < n then .wait (n - bs.length) else k (bs.take n)

section Turns

variable {σ τ β α : Type} {f : σ → τ} {o : Option α} {rest : List β}

@[simp] theorem Turn.map_eq_wait {t : Turn σ β α} {n : Nat} : t.map f = .wait n ↔ t = .wait n := by
  cases t <;> simp [Turn.map]

theorem Turn.map_eq_go {t : Turn σ β α} {s : τ} :
    t.map f = .go o s rest ↔ ∃ s₀, t = .go o s₀ rest ∧ f s₀ = s := by
  cases t <;> simp [Turn.map]
  tauto

theorem Turn.append_map (t : Turn σ β α) (more : List β) :
    (t.map f).append more = (t.append more).map f := by
  cases t <;> rfl

@[simp] theorem Turn.out_map (t : Turn σ β α) : (t.map f).out = t.out := by cases t <;> rfl

theorem await_eq_go {n : Nat} {bs : List β} {k : List β → Turn σ β α} {s : σ} :
    await n bs k = .go o s rest ↔ n ≤ bs.length ∧ k (bs.take n) = .go o s rest := by
  unfold await
  split <;> simp <;> omega

theorem await_eq_wait {n m : Nat} {bs : List β} {k : List β → Turn σ β α}
    (h : await n bs k = .wait m) :
    (bs.length < n ∧ m = n - bs.length) ∨ (n ≤ bs.length ∧ k (bs.take n) = .wait m) := by
  unfold await at h
  split at h
  · rename_i hlt
    cases h
    exact Or.inl ⟨hlt, rfl⟩
  · exact Or.inr ⟨by omega, h⟩

theorem mem_out_await {n : Nat} {bs : List β} {k : List β → Turn σ β α} {a : α}
    (h : a ∈ (await n bs k).out) : n ≤ bs.length ∧ a ∈ (k (bs.take n)).out := by
  unfold await at h
  split at h
  · cases h
  · exact ⟨by omega, h⟩

end Turns

/-- Where `n` elements are there, a decision stands when more input comes, and a
wait ends when as much has come as it asked for, not before. -/
structure Steady {σ β α : Type} (n : Nat) (f : List β → Turn σ β α) : Prop where
  decided : ∀ bs more, n ≤ bs.length → (∀ m, f bs ≠ .wait m) →
    f (bs ++ more) = (f bs).append more
  wait_pos : ∀ bs m, n ≤ bs.length → f bs = .wait m → 0 < m
  wait_append : ∀ bs more m, n ≤ bs.length → f bs = .wait m → more.length < m →
    f (bs ++ more) = .wait (m - more.length)

namespace Steady

variable {σ τ β α : Type} {m n : Nat}

theorem go {o : Option α} {s : σ} (h : m ≤ n) :
    Steady n fun bs : List β => Turn.go o s (bs.drop m) where
  decided bs more hn _ := by rw [List.drop_append_of_le_length (by omega)]; rfl
  wait_pos _ _ _ h := by cases h
  wait_append _ _ _ _ h := by cases h

theorem halt {o : Option α} {s : σ} (h : m ≤ n) :
    Steady n fun bs : List β => Turn.halt o s (bs.drop m) where
  decided bs more hn _ := by rw [List.drop_append_of_le_length (by omega)]; rfl
  wait_pos _ _ _ h := by cases h
  wait_append _ _ _ _ h := by cases h

theorem map {f : List β → Turn σ β α} (hf : Steady n f) (g : σ → τ) :
    Steady n fun bs => (f bs).map g where
  decided bs more hn h := by
    rw [Turn.append_map, hf.decided bs more hn fun k hk => h k (Turn.map_eq_wait.mpr hk)]
  wait_pos bs k hn h := hf.wait_pos bs k hn (Turn.map_eq_wait.mp h)
  wait_append bs more k hn h hk :=
    Turn.map_eq_wait.mpr (hf.wait_append bs more k hn (Turn.map_eq_wait.mp h) hk)

/-- What is done once enough is there may look at the front of the input only. -/
theorem await {k : List β → List β → Turn σ β α}
    (hk : ∀ front, front.length = m → Steady m (k front)) :
    Steady n fun bs => await m bs fun front => k front bs where
  decided bs more _ h := by
    have hlen : m ≤ bs.length := by
      by_contra hlt
      exact h _ (if_pos (by omega))
    have heq (more : List β) : Segments.await m (bs ++ more) (fun front => k front (bs ++ more)) =
        k (bs.take m) (bs ++ more) := by
      unfold Segments.await
      rw [if_neg (by rw [List.length_append]; omega), List.take_append_of_le_length hlen]
    have hnil := heq []
    rw [List.append_nil] at hnil
    rw [heq, hnil]
    rw [hnil] at h
    exact (hk _ (List.length_take_of_le hlen)).decided bs more hlen h
  wait_pos bs j _ h := by
    obtain ⟨hlt, rfl⟩ | ⟨hlen, h⟩ := await_eq_wait h
    · omega
    · exact (hk _ (List.length_take_of_le hlen)).wait_pos bs j hlen h
  wait_append bs more j _ h hj := by
    unfold Segments.await
    obtain ⟨hlt, rfl⟩ | ⟨hlen, h⟩ := await_eq_wait h
    · rw [if_pos (by rw [List.length_append]; omega), List.length_append, Nat.sub_sub]
    · rw [if_neg (by rw [List.length_append]; omega), List.take_append_of_le_length hlen]
      exact (hk _ (List.length_take_of_le hlen)).wait_append bs more j hlen h hj

end Steady

structure Incremental (σ β α : Type) where
  turn : σ → List β → Turn σ β α
  /-- Turns the reader can take without taking anything off. -/
  rank : σ → Nat
  go_weight : ∀ {s bs o s' rest}, turn s bs = .go o s' rest →
    2 * rest.length + rank s' < 2 * bs.length + rank s
  steady : ∀ s, Steady 0 (turn s)

/-- A reader at work: what it holds, what it has given out, how much it has
taken off its input. What it holds when it stops is never looked at. -/
structure Held (σ β α : Type) where
  state : σ
  buf : List β
  out : List α
  used : Nat
  halted : Bool
deriving DecidableEq

variable {σ β α : Type}

def start (s : σ) (bs : List β) : Held σ β α := ⟨s, bs, [], 0, false⟩

namespace Held

/-- More input behind what is held. -/
def append (h : Held σ β α) (bs : List β) : Held σ β α := { h with buf := h.buf ++ bs }

def took (h : Held σ β α) (o : Option α) (s : σ) (rest : List β) : Held σ β α where
  state := s
  buf := rest
  out := h.out ++ o.toList
  used := h.used + (h.buf.length - rest.length)
  halted := false

def stopped (h : Held σ β α) (o : Option α) (s : σ) (rest : List β) : Held σ β α :=
  { h.took o s rest with buf := [], halted := true }

@[simp] theorem append_nil (h : Held σ β α) : h.append [] = h := by simp [append]

theorem append_append (h : Held σ β α) (xs ys : List β) :
    (h.append xs).append ys = h.append (xs ++ ys) := by simp [append]

theorem took_append (h : Held σ β α) (o : Option α) (s : σ) (rest more : List β) :
    (h.append more).took o s (rest ++ more) = (h.took o s rest).append more := by
  simp [append, took, Nat.add_sub_add_right]

theorem stopped_append (h : Held σ β α) (o : Option α) (s : σ) (rest more : List β) :
    (h.append more).stopped o s (rest ++ more) = h.stopped o s rest := by
  simp [append, took, stopped, Nat.add_sub_add_right]

end Held

namespace Incremental

variable (R : Incremental σ β α)

def weight (h : Held σ β α) : Nat := 2 * h.buf.length + R.rank h.state

/-- Turn after turn, for as many as are given. -/
def pump : Nat → Held σ β α → Held σ β α
  | 0, h => h
  | n + 1, h =>
    match R.turn h.state h.buf with
    | .wait _ => h
    | .go o s rest => pump n (h.took o s rest)
    | .halt o s rest => h.stopped o s rest

/-- Turn after turn until the reader waits or stops. -/
def settle (h : Held σ β α) : Held σ β α := R.pump (R.weight h + 1) h

/-- A read: the input is added to what is held. -/
def feed (h : Held σ β α) (bs : List β) : Held σ β α :=
  if h.halted then h else R.settle (h.append bs)

/-- Read after read. -/
def run (h : Held σ β α) (cuts : List (List β)) : Held σ β α := cuts.foldl R.feed h

def Waits (h : Held σ β α) (n : Nat) : Prop := h.halted = false ∧ R.turn h.state h.buf = .wait n

def Settled (h : Held σ β α) : Prop := h.halted = true ∨ ∃ n, R.Waits h n

variable {R}

theorem go_append {s s' : σ} {bs rest : List β} {o : Option α} (more : List β)
    (h : R.turn s bs = .go o s' rest) : R.turn s (bs ++ more) = .go o s' (rest ++ more) := by
  rw [(R.steady s).decided bs more (Nat.zero_le _) (by simp [h]), h]
  rfl

theorem halt_append {s s' : σ} {bs rest : List β} {o : Option α} (more : List β)
    (h : R.turn s bs = .halt o s' rest) : R.turn s (bs ++ more) = .halt o s' (rest ++ more) := by
  rw [(R.steady s).decided bs more (Nat.zero_le _) (by simp [h]), h]
  rfl

theorem pump_eq_pump {m n : Nat} {h : Held σ β α} (hm : R.weight h < m) (hn : R.weight h < n) :
    R.pump m h = R.pump n h := by
  induction m generalizing n h with
  | zero => omega
  | succ m ih =>
    obtain _ | n := n
    · omega
    · unfold pump
      cases hturn : R.turn h.state h.buf with
      | wait need => rfl
      | halt o s rest => rfl
      | go o s rest =>
        have hw : R.weight (h.took o s rest) < R.weight h := R.go_weight hturn
        exact ih (by omega) (by omega)

theorem settle_wait {h : Held σ β α} {n : Nat} (hturn : R.turn h.state h.buf = .wait n) :
    R.settle h = h := by
  rw [settle, pump, hturn]

theorem settle_halt {h : Held σ β α} {o : Option α} {s : σ} {rest : List β}
    (hturn : R.turn h.state h.buf = .halt o s rest) : R.settle h = h.stopped o s rest := by
  rw [settle, pump, hturn]

theorem settle_go {h : Held σ β α} {o : Option α} {s : σ} {rest : List β}
    (hturn : R.turn h.state h.buf = .go o s rest) :
    R.settle h = R.settle (h.took o s rest) := by
  have hw : R.weight (h.took o s rest) < R.weight h := R.go_weight hturn
  rw [settle, pump, hturn]
  exact pump_eq_pump hw (Nat.lt_succ_self _)

/-- What holds of a reader at work, and is kept by each turn, holds once it has
settled. -/
theorem settle_induction {P : Held σ β α → Prop} {h : Held σ β α} (hh : h.halted = false)
    (hP : P h)
    (hgo : ∀ h o s rest, h.halted = false → P h → R.turn h.state h.buf = .go o s rest →
      P (h.took o s rest))
    (hhalt : ∀ h o s rest, h.halted = false → P h → R.turn h.state h.buf = .halt o s rest →
      P (h.stopped o s rest)) :
    P (R.settle h) ∧ R.Settled (R.settle h) := by
  induction hw : R.weight h using Nat.strongRecOn generalizing h with
  | ind w ih =>
    cases hturn : R.turn h.state h.buf with
    | wait n =>
      rw [settle_wait hturn]
      exact ⟨hP, Or.inr ⟨n, hh, hturn⟩⟩
    | halt o s rest =>
      rw [settle_halt hturn]
      exact ⟨hhalt h o s rest hh hP hturn, Or.inl rfl⟩
    | go o s rest =>
      rw [settle_go hturn]
      exact ih _ (hw ▸ R.go_weight hturn) rfl (hgo h o s rest hh hP hturn) rfl

theorem settled_settle {h : Held σ β α} (hh : h.halted = false) : R.Settled (R.settle h) :=
  (settle_induction (P := fun _ => True) hh trivial (fun _ _ _ _ _ _ _ => trivial)
    fun _ _ _ _ _ _ _ => trivial).2

theorem settled_feed {h : Held σ β α} (bs : List β) : R.Settled (R.feed h bs) := by
  unfold feed
  cases hh : h.halted with
  | true => exact Or.inl hh
  | false => exact settled_settle hh

/-- Input that comes after a reader has settled is read as if it had been there
before. -/
theorem settle_append {h : Held σ β α} (hh : h.halted = false) (more : List β) :
    R.settle (h.append more) = R.feed (R.settle h) more := by
  induction hw : R.weight h using Nat.strongRecOn generalizing h with
  | ind w ih =>
    cases hturn : R.turn h.state h.buf with
    | wait n =>
      rw [settle_wait hturn, feed, if_neg (by simp [hh])]
    | halt o s rest =>
      have hstop : (h.stopped o s rest).halted = true := rfl
      rw [settle_halt hturn, feed, if_pos hstop, settle_halt (halt_append more hturn),
        Held.stopped_append]
    | go o s rest =>
      rw [settle_go hturn, settle_go (go_append more hturn), Held.took_append]
      exact ih _ (hw ▸ R.go_weight hturn) rfl rfl

theorem feed_feed (h : Held σ β α) (xs ys : List β) :
    R.feed (R.feed h xs) ys = R.feed h (xs ++ ys) := by
  cases hh : h.halted with
  | true => simp [feed, hh]
  | false =>
    have hx : R.feed h xs = R.settle (h.append xs) := by simp [feed, hh]
    have hxy : R.feed h (xs ++ ys) = R.settle (h.append (xs ++ ys)) := by simp [feed, hh]
    rw [hx, hxy, ← Held.append_append, settle_append (h := h.append xs) hh]

theorem feed_nil {h : Held σ β α} (hs : R.Settled h) : R.feed h [] = h := by
  unfold feed
  split
  · rfl
  · rename_i hh
    obtain hs | ⟨n, _, hturn⟩ := hs
    · exact absurd hs hh
    · rw [Held.append_nil, settle_wait hturn]

/-- **However the input is cut, it is read as one.** -/
theorem run_eq_feed {h : Held σ β α} (hs : R.Settled h) (cuts : List (List β)) :
    R.run h cuts = R.feed h cuts.flatten := by
  induction cuts generalizing h with
  | nil => exact (feed_nil hs).symm
  | cons c cs ih =>
    have hrun : R.run h (c :: cs) = R.run (R.feed h c) cs := rfl
    rw [hrun, ih (settled_feed c), feed_feed, List.flatten_cons]

/-- What is given out is what turns give out. -/
theorem out_feed {P : α → Prop} (hP : ∀ s bs, ∀ a ∈ (R.turn s bs).out, P a) {h : Held σ β α}
    (hout : ∀ a ∈ h.out, P a) (bs : List β) : ∀ a ∈ (R.feed h bs).out, P a := by
  unfold feed
  split
  · exact hout
  · rename_i hh
    have taken {h : Held σ β α} {o : Option α} (hout : ∀ a ∈ h.out, P a)
        (ho : (R.turn h.state h.buf).out = o) : ∀ a ∈ h.out ++ o.toList, P a := by
      intro a ha
      rcases List.mem_append.mp ha with ha | ha
      · exact hout a ha
      · exact hP _ _ a (ho ▸ Option.mem_toList.mp ha)
    refine (settle_induction (P := fun h => ∀ a ∈ h.out, P a) (h := h.append bs)
      (by simpa [Held.append] using hh) hout ?_ ?_).1
    · intro h o s rest _ hout hturn
      exact taken hout (by rw [hturn]; rfl)
    · intro h o s rest _ hout hturn
      exact taken hout (by rw [hturn]; rfl)

/-- Less than was asked for changes nothing but what is held. -/
theorem feed_short {h : Held σ β α} {n : Nat} (hw : R.Waits h n) {bs : List β}
    (hbs : bs.length < n) : R.feed h bs = h.append bs := by
  rw [feed, if_neg (by simp [hw.1])]
  exact settle_wait ((R.steady _).wait_append _ _ _ (Nat.zero_le _) hw.2 hbs)

/-! ## Asking for what is missing -/

/-- A reader that asks for a number of elements at most `cap`, and looks at them
when all have come. -/
structure Asking (σ β α : Type) where
  held : Held σ β α
  asked : Nat
  got : List β

variable (R)

/-- What a settled reader asks for: all it waits for, as far as it has room. -/
def request (cap : Nat) (h : Held σ β α) : Nat :=
  if h.halted then 0
  else
    match R.turn h.state h.buf with
    | .wait n => min n cap
    | _ => 0

def ask (cap : Nat) (h : Held σ β α) : Asking σ β α := ⟨h, R.request cap h, []⟩

/-- A piece of what was asked for comes. -/
def arrive (cap : Nat) (a : Asking σ β α) (bs : List β) : Asking σ β α :=
  if a.held.halted then a
  else if a.got.length + bs.length < a.asked then { a with got := a.got ++ bs }
  else R.ask cap (R.feed a.held (a.got ++ bs))

/-- Everything that has come. -/
def Asking.seen (a : Asking σ β α) : Held σ β α :=
  if a.held.halted then a.held else a.held.append a.got

/-- What is held is settled, and what has come is less than what was asked for. -/
def Asks (cap : Nat) (a : Asking σ β α) : Prop :=
  R.Settled a.held ∧ a.asked = R.request cap a.held ∧
    (a.held.halted = false → a.got.length < a.asked)

variable {R}

theorem request_pos {cap : Nat} (hcap : 0 < cap) {h : Held σ β α} (hs : R.Settled h)
    (hh : h.halted = false) : 0 < R.request cap h ∧ R.request cap h ≤ cap := by
  obtain hs | ⟨n, _, hturn⟩ := hs
  · rw [hs] at hh
    cases hh
  · have hn := (R.steady _).wait_pos _ _ (Nat.zero_le _) hturn
    simp only [request, hh, hturn]
    exact ⟨Nat.lt_min.mpr ⟨hn, hcap⟩, Nat.min_le_right n cap⟩

theorem asked_le {cap n : Nat} {a : Asking σ β α} (ha : R.Asks cap a) (hw : R.Waits a.held n) :
    a.asked ≤ n := by
  rw [ha.2.1]
  simp only [request, hw.1, hw.2]
  exact Nat.min_le_left n cap

theorem asks_ask {cap : Nat} (hcap : 0 < cap) {h : Held σ β α} (hs : R.Settled h) :
    R.Asks cap (R.ask cap h) :=
  ⟨hs, rfl, fun hh => (request_pos hcap hs hh).1⟩

/-- What has come so far is read as it will be when the rest is there. -/
theorem feed_seen {cap : Nat} {a : Asking σ β α} (ha : R.Asks cap a) (bs : List β) :
    R.feed a.seen bs = R.feed a.held (a.got ++ bs) := by
  unfold Asking.seen
  split
  · rename_i hh
    simp [feed, hh]
  · rename_i hh
    have hh' : a.held.halted = false := by simpa using hh
    obtain hs | ⟨n, hw⟩ := ha.1
    · exact absurd hs hh
    · have hshort : a.got.length < n := Nat.lt_of_lt_of_le (ha.2.2 hh') (asked_le ha hw)
      rw [← feed_short hw hshort, feed_feed]

theorem arrive_seen {cap : Nat} (hcap : 0 < cap) {a : Asking σ β α} (ha : R.Asks cap a)
    (bs : List β) : R.Asks cap (R.arrive cap a bs) ∧
      (R.arrive cap a bs).seen = R.feed a.seen bs := by
  unfold arrive
  by_cases hh : a.held.halted = true
  · rw [if_pos hh]
    exact ⟨ha, by simp [Asking.seen, feed, hh]⟩
  · have hh' : a.held.halted = false := by simpa using hh
    rw [if_neg hh]
    split
    · rename_i hlt
      refine ⟨⟨ha.1, ha.2.1, fun _ => ?_⟩, ?_⟩
      · rw [List.length_append]
        exact hlt
      · obtain hs | ⟨n, hw⟩ := ha.1
        · exact absurd hs hh
        · have hshort : (a.got ++ bs).length < n := by
            rw [List.length_append]
            exact Nat.lt_of_lt_of_le hlt (asked_le ha hw)
          rw [feed_seen ha, feed_short hw hshort]
          simp [Asking.seen, hh']
    · refine ⟨asks_ask hcap (settled_feed _), ?_⟩
      rw [feed_seen ha]
      unfold Asking.seen ask
      split <;> simp

/-- **However the answers come in, they are read as one.** -/
theorem run_arrive {cap : Nat} (hcap : 0 < cap) {a : Asking σ β α} (ha : R.Asks cap a)
    (cuts : List (List β)) : R.Asks cap (cuts.foldl (R.arrive cap) a) ∧
      (cuts.foldl (R.arrive cap) a).seen = R.run a.seen cuts := by
  induction cuts generalizing a with
  | nil => exact ⟨ha, rfl⟩
  | cons c cs ih =>
    obtain ⟨hasks, hseen⟩ := arrive_seen hcap ha c
    obtain ⟨hasks', hseen'⟩ := ih hasks
    refine ⟨hasks', ?_⟩
    rw [List.foldl_cons, hseen', hseen]
    rfl

end Incremental

end MkPool.Lib.Segments
