import GingerOs.Syscall
import GingerOs.Proofs.MmapFixed

/-! What the argument fetching of the system-call gate accepts, and when a system
call gets past it. -/

namespace GingerOs.Sys
open Links Mm Spans List

variable {c : Caller} {cells : List Nat} {addr size : Word} {n : Nat} {err : Int} {value : Word}

abbrev Caller.Regions (c : Caller) (cells : List Nat) : Prop := Mm.Regions c.space c.mmap cells

def Mapped (c : Caller) (cells : List Nat) (a : Nat) : Prop := ∃ p ∈ cells, c.space.low p ≤ a ∧ a ≤ c.space.high p

instance (c : Caller) (cells : List Nat) (a : Nat) : Decidable (Mapped c cells a) :=
  inferInstanceAs (Decidable (∃ p ∈ cells, _))

def Checked (c : Caller) (cells : List Nat) (addr : Word) : Prop := addr = 0 ∨ Mapped c cells addr.toNat

/-- From `str` on there are `n` bytes that are not NUL, all below the stack's end, and
then a NUL or the stack's end. -/
structure Scans (c : Caller) (str : Word) (n : Nat) : Prop where
  below : ∀ i < n, str.toNat + i < 0xC0000000
  bytes : ∀ i < n, ∃ b, c.peek (str + BitVec.ofNat 32 i) = some b ∧ b ≠ 0
  stop : 0xC0000000 ≤ str.toNat + n ∨ c.peek (str + BitVec.ofNat 32 n) = some 0

theorem Scans.le {str : Word} (scans : Scans c str n) : n ≤ 0xC0000000 := by
  cases n with
  | zero => omega
  | succ n =>
    have last := scans.below n (by omega)
    omega

theorem add_one_ofNat (a : Word) (d : Nat) : a + 1 + BitVec.ofNat 32 d = a + BitVec.ofNat 32 (d + 1) := by
  rw [BitVec.add_assoc, Nat.add_comm d 1, BitVec.ofNat_add]
  rfl

theorem scans_zero {str : Word} : Scans c str 0 ↔ 0xC0000000 ≤ str.toNat ∨ c.peek str = some 0 := by
  constructor
  · intro scans
    simpa using scans.stop
  · intro stop
    exact ⟨by simp, by simp, by simpa using stop⟩

theorem scans_succ {str : Word} (below : str.toNat < 0xC0000000) :
    Scans c str (n + 1) ↔ (∃ b, c.peek str = some b ∧ b ≠ 0) ∧ Scans c (str + 1) n := by
  have next : (str + 1).toNat = str.toNat + 1 := by bv_omega
  have shift := add_one_ofNat str
  have stop : str.toNat + 1 + n = str.toNat + (n + 1) := by omega
  constructor
  · intro scans
    refine ⟨by simpa using scans.bytes 0 (Nat.succ_pos n), ?_, ?_, ?_⟩
    · intro i inside
      have bound := scans.below (i + 1) (by omega)
      omega
    · intro i inside
      rw [shift]
      exact scans.bytes (i + 1) (by omega)
    · rw [shift, next, stop]
      exact scans.stop
  · intro ⟨first, scans⟩
    refine ⟨?_, ?_, ?_⟩
    · intro i inside
      cases i with
      | zero => exact below
      | succ i =>
        have bound := scans.below i (by omega)
        omega
    · intro i inside
      cases i with
      | zero => simpa using first
      | succ i =>
        rw [← shift]
        exact scans.bytes i (by omega)
    · rw [← shift, ← stop, ← next]
      exact scans.stop

theorem fetchstrLoop_iff {fuel : Nat} {str len : Word} {result : Int} (checked : chkAddr c addr = .ok 0)
    (enough : 0xC0000000 - str.toNat < fuel) : fetchstrLoop c addr fuel str len = .ok result ↔
      ∃ n, Scans c str n ∧ result = (len + BitVec.ofNat 32 n).toInt := by
  -- Every step either stops at `str` itself or moves on to the string behind its first byte.
  induction fuel generalizing str len with
  | zero => omega
  | succ fuel ih =>
    have empty : len + BitVec.ofNat 32 0 = len := BitVec.add_zero len
    rw [← Nat.or_exists_add_one, scans_zero, empty, fetchstrLoop]
    by_cases top : USER_STACK ≤ str
    · have high : 0xC0000000 ≤ str.toNat := top
      have none_ : ∀ n, ¬ Scans c str (n + 1) := by
        intro n scans
        have below := scans.below 0 (Nat.succ_pos n)
        omega
      simp [top, high, none_, pure, Except.pure, eq_comm]
    have below : str.toNat < 0xC0000000 := Nat.lt_of_not_le top
    simp only [if_neg top, scans_succ below, ← add_one_ofNat, Nat.not_le.mpr below, false_or, load]
    cases byte : c.peek str with
    | none => simp [throw, throwThe, MonadExceptOf.throw, bind, Except.bind]
    | some b =>
      simp only [Option.some.injEq, exists_eq_left', ne_eq]
      change (if b = 0 then (.ok len.toInt : Except Stop Int) else _) = _ ↔ _
      by_cases null : b = 0
      · simp only [null, if_true, not_true, false_and, exists_false, or_false, true_and, Except.ok.injEq]
        exact eq_comm
      · have rest := @ih (str + 1) (len + 1) (by bv_omega)
        simp only [null, if_false, checked, not_false_eq_true, false_and, false_or, true_and, ← rest]
        rfl

structure Argument (c : Caller) (cells : List Nat) (n : Nat) (value : Word) : Prop where
  checked : Checked c cells (c.slot n)
  loaded : loadInt c (c.slot n) = .ok value

theorem length_toInt {m : Nat} {result : Int} (bound : m ≤ 0xC0000000) (nonneg : 0 ≤ result) :
    result = (0 + BitVec.ofNat 32 m : Word).toInt ↔ m < 2 ^ 31 ∧ result = m := by
  have start : (0 + BitVec.ofNat 32 m : Word) = BitVec.ofNat 32 m := BitVec.zero_add _
  rw [start, BitVec.toInt_eq_toNat_cond, BitVec.toNat_ofNat, Nat.mod_eq_of_lt (by omega)]
  split <;> omega

section Arguments
variable (regions : c.Regions cells)
include regions

theorem chkAddr_spec (addr : Word) :
    Checked c cells addr ∧ chkAddr c addr = .ok 0 ∨ ¬ Checked c cells addr ∧ chkAddr c addr = .ok (-EADDRNOTAVAIL) := by
  by_cases null : addr = 0
  · refine .inl ⟨.inl null, ?_⟩
    rw [chkAddr, if_pos null]
    rfl
  have find := mmapFind_spec regions addr
  have value : chkAddr c addr =
      .ok ((owner c.space.low c.space.high cells addr.toNat).elim (-EADDRNOTAVAIL) fun _ => 0) := by
    rw [chkAddr, if_neg null, find]
    cases owner c.space.low c.space.high cells addr.toNat <;> rfl
  rw [value]
  cases owned : owner c.space.low c.space.high cells addr.toNat with
  | none =>
    refine .inr ⟨?_, rfl⟩
    rintro (zero | ⟨p, member, inside⟩)
    · exact null zero
    · exact owner_eq_none.mp owned p member inside
  | some p =>
    obtain ⟨member, inside⟩ := owner_some owned
    exact .inl ⟨.inr ⟨p, member, inside⟩, rfl⟩

theorem chkAddr_zero : chkAddr c addr = .ok 0 ↔ Checked c cells addr := by
  rcases chkAddr_spec regions addr with ⟨checked, value⟩ | ⟨unchecked, value⟩
  · simp [checked, value]
  · simp [unchecked, value, EADDRNOTAVAIL]

/-- `argptr` looks at the argument word and at the one address behind the range. -/
theorem argptr_iff : argptr c n size = .ok (0, value) ↔
    argint c n = .ok (0, value) ∧ Checked c cells (value + size) := by
  rw [← chkAddr_zero regions]
  constructor
  · intro call
    rcases bind_err call fun _ _ => rfl with ⟨addr, fetched, call⟩ | ⟨_, _, _, failed, ⟨⟩⟩
    on_goal 2 => exact absurd rfl failed
    obtain ⟨code, checked, call⟩ := bind_ok call
    split at call
    next failed => cases call; exact absurd rfl failed
    next passed =>
      cases call
      exact ⟨fetched, not_not.mp passed ▸ checked⟩
  · intro ⟨fetched, checked⟩
    rw [argptr, fetched]
    change (chkAddr c (value + size) >>= _) = _
    rw [checked]
    rfl

theorem argint_iff : argint c n = .ok (0, value) ↔ Argument c cells n value := by
  constructor
  · intro call
    obtain ⟨code, checked, call⟩ := bind_ok call
    split at call
    next failed => cases call; exact absurd rfl failed
    next passed =>
      rw [not_not] at passed
      obtain ⟨word, loaded, call⟩ := bind_ok call
      cases call
      exact ⟨(chkAddr_zero regions).mp (passed ▸ checked), loaded⟩
  · intro ⟨checked, loaded⟩
    rw [argint, fetchint, (chkAddr_zero regions).mpr checked]
    rw [loaded]
    rfl

theorem argint_err (call : argint c n = .ok (err, value)) : err = 0 ∨ err = -EADDRNOTAVAIL := by
  obtain ⟨code, checked, call⟩ := bind_ok call
  rcases chkAddr_spec regions (c.slot n) with ⟨_, result⟩ | ⟨_, result⟩
  all_goals
    rw [result] at checked
    cases checked
  · obtain ⟨word, _, call⟩ := bind_ok call
    cases call
    exact .inl rfl
  · cases call
    exact .inr rfl

/-- `argstr` looks at the first address of the string only. -/
theorem argstr_iff {result : Int} (nonneg : 0 ≤ result) : argstr c n = .ok (result, value) ↔
      argint c n = .ok (0, value) ∧ Checked c cells value ∧ ∃ m < 2 ^ 31, Scans c value m ∧ result = m := by
  constructor
  · intro call
    rcases bind_err call fun _ _ => rfl with ⟨addr, fetched, call⟩ | ⟨e, _, fetched, failed, call⟩
    on_goal 2 =>
      cases call
      rw [(argint_err regions fetched).resolve_left failed, EADDRNOTAVAIL] at nonneg
      omega
    obtain ⟨code, checked, call⟩ := bind_ok call
    rcases chkAddr_spec regions addr with ⟨mapped, passed⟩ | ⟨_, refused⟩
    · rw [passed] at checked
      cases checked
      obtain ⟨len, scanned, call⟩ := bind_ok call
      cases call
      obtain ⟨m, scans, length⟩ := (fetchstrLoop_iff passed (by simp [USER_STACK]; omega)).mp scanned
      obtain ⟨short, same⟩ := (length_toInt scans.le nonneg).mp length
      exact ⟨fetched, mapped, m, short, scans, same⟩
    · rw [refused] at checked
      cases checked
      cases call
      rw [EADDRNOTAVAIL] at nonneg
      omega
  · intro ⟨fetched, mapped, m, short, scans, length⟩
    have passed := (chkAddr_zero regions).mpr mapped
    have scanned : fetchstrLoop c value (USER_STACK.toNat + 1) value 0 = .ok result := by
      apply (fetchstrLoop_iff passed (by simp [USER_STACK]; omega)).mpr
      exact ⟨m, scans, (length_toInt scans.le nonneg).mpr ⟨short, length⟩⟩
    rw [argstr, fetched]
    change fetchstr c value = _
    rw [fetchstr, passed]
    rw [scanned]
    rfl

end Arguments

def stackCaller (word : Word) : Caller where
  space := threePages
  mmap := 0
  esp := 0x1000
  peek a := if a.toNat < 0x1000 ∨ 0x4000 ≤ a.toNat then none
    else if a.toNat < 0x2000 then some (word.extractLsb' (8 * (a.toNat % 4)) 8) else some 0

theorem stackCaller_mapped (word : Word) {a : Nat} (low : 0x1000 ≤ a) (high : a ≤ 0x3FFF) :
    Mapped (stackCaller word) [0] a := ⟨0, mem_singleton.mpr rfl, low, high⟩

theorem stackCaller_argument (word : Word) : Argument (stackCaller word) [0] 0 word := by
  refine ⟨.inr (stackCaller_mapped word (a := 0x1004) (by decide) (by decide)), ?_⟩
  have bytes : loadInt (stackCaller word) 0x1004 =
      .ok (word.extractLsb' 24 8 ++ word.extractLsb' 16 8 ++ word.extractLsb' 8 8 ++ word.extractLsb' 0 8) := rfl
  exact bytes.trans (congrArg _ (by ext i; simp; grind))

/-- The arguments an entry asks for pass its asserts. -/
def Accepted (c : Caller) (arg : Arg) : Prop := ∃ err value, arg.fetch c = .ok (err, value) ∧ arg.accepts err = true

/-- The argument could be fetched; an empty string counts. -/
def Arg.fetched (err : Int) : Arg → Bool
  | str _ => 0 ≤ err
  | _ => err = 0

def Fetched (c : Caller) (arg : Arg) : Prop := ∃ err value, arg.fetch c = .ok (err, value) ∧ arg.fetched err = true

theorem Accepted.fetched {arg : Arg} (accepted : Accepted c arg) : Fetched c arg := by
  obtain ⟨err, value, fetched, accepts⟩ := accepted
  refine ⟨err, value, fetched, ?_⟩
  cases arg <;> simp_all [Arg.accepts, Arg.fetched]
  omega

theorem want_iff {arg : Arg} : (∃ value, want c arg = .ok value) ↔ Accepted c arg := by
  constructor
  · intro ⟨value, call⟩
    obtain ⟨⟨err, word⟩, fetched, call⟩ := bind_ok call
    obtain ⟨_, asserted, _⟩ := bind_ok call
    exact ⟨err, word, fetched, assert_ok asserted⟩
  · intro ⟨err, value, fetched, accepts⟩
    refine ⟨value, ?_⟩
    rw [want, fetched]
    change (assert (arg.accepts err) >>= _) = _
    rw [accepts]
    rfl

theorem mapM_want_iff {args : List Arg} :
    (∃ values, args.mapM (want c) = .ok values) ↔ ∀ arg ∈ args, Accepted c arg := by
  induction args with
  | nil => simp [pure, Except.pure]
  | cons arg args ih =>
    rw [forall_mem_cons, ← want_iff, ← ih, mapM_cons]
    constructor
    · intro ⟨values, call⟩
      obtain ⟨value, first, call⟩ := bind_ok call
      obtain ⟨rest, others, _⟩ := bind_ok call
      exact ⟨⟨value, first⟩, rest, others⟩
    · intro ⟨⟨value, first⟩, rest, others⟩
      refine ⟨value :: rest, ?_⟩
      rw [first]
      rw [others]
      rfl

/-- What may come out of an entry: a negative error, or its call with every argument
it asks for fetched. -/
inductive Reply.Sound (c : Caller) (e : Entry) : Reply → Prop
  | refused {v : Int} (negative : v < 0) : Sound c e (.ret v)
  | called {f : Callee} {args : List Word} (fetched : ∀ arg ∈ e.asks c, Fetched c arg) : Sound c e (.call f args)

/-- An entry comes out well exactly if its arguments pass its asserts. -/
def Entry.Asserting (e : Entry) : Prop := ∀ c, (∃ reply, e.run c = .ok reply ∧ reply.Sound c e) ↔
  (∀ arg ∈ e.asks c, Accepted c arg) ∧ ∀ n ∈ e.spare, ∃ value, maybe c (.int n) = .ok value

theorem asserting_of_asks {e : Entry} (used : e.spare = [])
    (asks : ∀ c, (∃ reply, e.run c = .ok reply ∧ reply.Sound c e) ↔ ∀ arg ∈ e.asks c, Accepted c arg) : e.Asserting := by
  intro c
  rw [asks c, used]
  simp

theorem wrapper_asserting (f : Callee) (args : List Arg) : (wrapper f args).Asserting := by
  apply asserting_of_asks rfl
  intro c
  constructor
  · intro ⟨reply, call, _⟩
    obtain ⟨values, wanted, _⟩ := bind_ok call
    exact mapM_want_iff.mp ⟨values, wanted⟩
  · intro accepted
    obtain ⟨values, wanted⟩ : ∃ values, args.mapM (want c) = .ok values := mapM_want_iff.mpr accepted
    refine ⟨.call f values, ?_, .called fun arg member => (accepted arg member).fetched⟩
    change (args.mapM (want c) >>= _) = _
    rw [wanted]
    rfl

theorem want_int (wanted : want c (.int n) = .ok value) : argint c n = .ok (0, value) := by
  obtain ⟨⟨err, word⟩, fetched, call⟩ := bind_ok wanted
  obtain ⟨_, asserted, call⟩ := bind_ok call
  cases call
  have zero : err = 0 := of_decide_eq_true (assert_ok asserted)
  exact zero ▸ fetched

theorem sysOpen_asks {oflags : Word} (fetched : argint c 1 = .ok (0, oflags)) :
    sysOpen.asks c = if creates oflags then [.str 0, .int 1, .int 2] else [.str 0, .int 1] := by
  simp only [sysOpen, fetched]
  split <;> rfl

theorem sysOpen_asserting : sysOpen.Asserting := by
  apply asserting_of_asks rfl
  intro c
  constructor
  · intro ⟨reply, call, _⟩
    obtain ⟨path, first, call⟩ := bind_ok call
    obtain ⟨oflags, second, call⟩ := bind_ok call
    have strings := want_iff.mp ⟨path, first⟩
    have flags := want_iff.mp ⟨oflags, second⟩
    rw [sysOpen_asks (want_int second)]
    split at call
    next creating =>
      obtain ⟨mode, third, _⟩ := bind_ok call
      simp [creating, strings, flags, want_iff.mp ⟨mode, third⟩]
    next plain => simp [plain, strings, flags]
  · intro accepted
    obtain ⟨path, first⟩ := want_iff.mpr (accepted (.str 0) (by simp [sysOpen]))
    obtain ⟨oflags, second⟩ := want_iff.mpr (accepted (.int 1) (by simp [sysOpen]))
    have asks := sysOpen_asks (want_int second)
    have fetched : ∀ arg ∈ sysOpen.asks c, Fetched c arg := fun arg member => (accepted arg member).fetched
    by_cases creating : creates oflags = true
    · obtain ⟨mode, third⟩ := want_iff.mpr (accepted (.int 2) (by simp [asks, creating]))
      refine ⟨.call .open_ [path, oflags, mode], ?_, .called fetched⟩
      simp [sysOpen, first, second, third, creating, bind, Except.bind, pure, Except.pure]
    · refine ⟨.call .open_ [path, oflags, 0], ?_, .called fetched⟩
      simp [sysOpen, first, second, creating, bind, Except.bind, pure, Except.pure]

theorem sysCreat_asserting : sysCreat.Asserting := by
  apply asserting_of_asks rfl
  intro c
  constructor
  · intro ⟨reply, call, _⟩
    obtain ⟨path, first, call⟩ := bind_ok call
    obtain ⟨mode, second, _⟩ := bind_ok call
    simp [sysCreat, want_iff.mp ⟨path, first⟩, want_iff.mp ⟨mode, second⟩]
  · intro accepted
    obtain ⟨path, first⟩ := want_iff.mpr (accepted (.str 0) (by simp [sysCreat]))
    obtain ⟨mode, second⟩ := want_iff.mpr (accepted (.int 1) (by simp [sysCreat]))
    refine ⟨.ret (-ENOSYS), ?_, .refused (by decide)⟩
    simp [sysCreat, first, second, bind, Except.bind, pure, Except.pure]

theorem maybe_ok {arg : Arg} (accepted : Accepted c arg) : ∃ value, maybe c arg = .ok value := by
  obtain ⟨err, value, fetch, _⟩ := accepted
  refine ⟨if err = 0 then value else 0, ?_⟩
  rw [maybe, fetch]
  rfl

/-- The entries that ignore failed fetches take no strings. -/
theorem Fetched.accepted {arg : Arg} (fetched : Fetched c arg) (plain : ∀ n, arg ≠ .str n) : Accepted c arg := by
  obtain ⟨err, value, fetch, same⟩ := fetched
  refine ⟨err, value, fetch, ?_⟩
  cases arg with
  | int | ptr => exact same
  | str n => exact absurd rfl (plain n)

theorem sysWaitpid_asserting : sysWaitpid.Asserting := by
  apply asserting_of_asks rfl
  intro c
  constructor
  · intro ⟨reply, call, sound⟩ arg member
    cases sound with
    | refused =>
      obtain ⟨pid, _, call⟩ := bind_ok call
      obtain ⟨statLoc, _, call⟩ := bind_ok call
      obtain ⟨options, _, call⟩ := bind_ok call
      cases call
    | called fetched =>
      apply (fetched arg member).accepted
      rintro n rfl
      simp [sysWaitpid] at member
  · intro accepted
    obtain ⟨pid, first⟩ := maybe_ok (accepted (.int 0) (by simp [sysWaitpid]))
    obtain ⟨statLoc, second⟩ := maybe_ok (accepted (.ptr 1 4) (by simp [sysWaitpid]))
    obtain ⟨options, third⟩ := maybe_ok (accepted (.int 2) (by simp [sysWaitpid]))
    refine ⟨.call .waitpid [pid, statLoc, options], ?_, .called fun arg member => (accepted arg member).fetched⟩
    simp only [sysWaitpid, first, second, third, bind, Except.bind, pure, Except.pure]

theorem sysThreadCancel_asserting : sysThreadCancel.Asserting := by
  intro c
  constructor
  · intro ⟨reply, call, _⟩
    obtain ⟨thread, fetched, _⟩ := bind_ok call
    refine ⟨fun arg member => absurd member not_mem_nil, ?_⟩
    intro n member
    cases mem_singleton.mp member
    exact ⟨thread, fetched⟩
  · intro ⟨_, tried⟩
    obtain ⟨thread, fetched⟩ := tried 0 (mem_singleton.mpr rfl)
    refine ⟨.ret (-ENOSYS), ?_, .refused (by decide)⟩
    simp [sysThreadCancel, fetched, bind, Except.bind, pure, Except.pure]

theorem syscall_asserting {e : Entry} (entry : some e ∈ syscall) : e.Asserting := by
  simp only [syscall, map_cons, map_nil, cons_append, nil_append, mem_cons,
    Option.some.injEq, not_mem_nil, or_false, reduceCtorEq, false_or] at entry
  repeat' (rcases entry with rfl | entry)
  all_goals first
    | exact wrapper_asserting _ _
    | exact sysOpen_asserting
    | exact sysCreat_asserting
    | exact sysWaitpid_asserting
    | exact sysThreadCancel_asserting

/-- What the system-call gate may answer: that there is no such call, or what an entry
of the table soundly replies. -/
inductive Answer (c : Caller) (eax : Word) : Reply → Prop
  | missing (none : ∀ e, syscall[eax.toNat]? ≠ some (some e)) : Answer c eax (.ret (-ENOSYS))
  | entered {e : Entry} {reply : Reply} (entry : syscall[eax.toNat]? = some (some e)) (sound : reply.Sound c e) :
    Answer c eax reply

/-- The argument is on the stack, and the address it is checked at is in a region; a string has
between 1 and 2^31 - 1 bytes before its NUL or the end of the stack. -/
def Arg.Present (c : Caller) (cells : List Nat) : Arg → Prop
  | int n => ∃ word, Argument c cells n word
  | ptr n size => ∃ word, Argument c cells n word ∧ Checked c cells (word + size)
  | str n => ∃ word, Argument c cells n word ∧ Checked c cells word ∧ ∃ m, 0 < m ∧ m < 2 ^ 31 ∧ Scans c word m

section Present
variable (regions : c.Regions cells)
include regions

theorem accepted_iff {arg : Arg} : Accepted c arg ↔ arg.Present c cells := by
  cases arg with
  | int n =>
    constructor
    · rintro ⟨err, word, fetched, zero⟩
      obtain rfl := of_decide_eq_true zero
      exact ⟨word, (argint_iff regions).mp fetched⟩
    · rintro ⟨word, argument⟩
      exact ⟨0, word, (argint_iff regions).mpr argument, rfl⟩
  | ptr n size =>
    constructor
    · rintro ⟨err, word, fetched, zero⟩
      obtain rfl := of_decide_eq_true zero
      obtain ⟨first, checked⟩ := (argptr_iff regions).mp fetched
      exact ⟨word, (argint_iff regions).mp first, checked⟩
    · rintro ⟨word, argument, checked⟩
      exact ⟨0, word, (argptr_iff regions).mpr ⟨(argint_iff regions).mpr argument, checked⟩, rfl⟩
  | str n =>
    constructor
    · rintro ⟨err, word, fetched, accepts⟩
      have positive : 0 < err := of_decide_eq_true accepts
      obtain ⟨first, checked, m, short, scans, rfl⟩ := (argstr_iff regions (by omega)).mp fetched
      exact ⟨word, (argint_iff regions).mp first, checked, m, by omega, short, scans⟩
    · rintro ⟨word, argument, checked, m, positive, short, scans⟩
      have fetched := (argstr_iff regions (Int.natCast_nonneg m)).mpr
        ⟨(argint_iff regions).mpr argument, checked, m, short, scans, rfl⟩
      exact ⟨m, word, fetched, decide_eq_true (by omega)⟩

/-- A fetch that may fail must still not read what cannot be read. -/
theorem maybe_iff : (∃ value, maybe c (.int n) = .ok value) ↔
    (Checked c cells (c.slot n) → ∃ word, loadInt c (c.slot n) = .ok word) := by
  rcases chkAddr_spec regions (c.slot n) with ⟨checked, passed⟩ | ⟨unchecked, refused⟩
  · rw [maybe, Arg.fetch, argint, fetchint, passed]
    cases loadInt c (c.slot n) <;> simp [checked, bind, Except.bind, pure, Except.pure]
  · rw [maybe, Arg.fetch, argint, fetchint, refused]
    exact iff_of_true ⟨_, rfl⟩ fun checked => absurd checked unchecked

end Present

/-- The gate answers exactly if `eax` is not the number one past the table and the stack and the
regions hold all the arguments that the entry asks for. -/
theorem syscall_gate_answers (regions : c.Regions cells) (eax : Word) :
    (∃ reply, syscallStub c eax = .ok reply ∧ Answer c eax reply) ↔
      eax.toNat ≠ 60 ∧ ∀ e, syscall[eax.toNat]? = some (some e) → (∀ arg ∈ e.asks c, arg.Present c cells) ∧
        ∀ n ∈ e.spare, Checked c cells (c.slot n) → ∃ word, loadInt c (c.slot n) = .ok word := by
  have size : syscall.length = 60 := rfl
  by_cases outside : syscall.length < eax.toNat
  · have absent : syscall[eax.toNat]? = none := List.getElem?_eq_none (by omega)
    refine iff_of_true ⟨.ret (-ENOSYS), ?_, .missing (by simp [absent])⟩ ⟨by omega, by simp [absent]⟩
    rw [syscallStub, if_pos outside]
    rfl
  rw [syscallStub, if_neg outside]
  cases slot : syscall[eax.toNat]? with
  | none =>
    rw [List.getElem?_eq_none_iff] at slot
    refine iff_of_false ?_ fun ⟨other, _⟩ => other (by omega)
    rintro ⟨reply, call, _⟩
    cases call
  | some entry =>
    have inside := (List.getElem?_eq_some_iff.mp slot).1
    cases entry with
    | none =>
      refine iff_of_true ⟨.ret (-ENOSYS), rfl, .missing (by simp [slot])⟩ ⟨by omega, by simp⟩
    | some e =>
      have asserting := syscall_asserting (mem_of_getElem? slot) c
      simp only [accepted_iff regions, maybe_iff regions] at asserting
      constructor
      · intro ⟨reply, call, answer⟩
        cases answer with
        | missing none => exact absurd slot (none e)
        | entered other sound =>
          rw [slot] at other
          cases other
          refine ⟨by omega, ?_⟩
          intro e' same
          cases same
          exact asserting.mp ⟨reply, call, sound⟩
      · intro ⟨_, accepted⟩
        obtain ⟨reply, call, sound⟩ := asserting.mpr (accepted e rfl)
        exact ⟨reply, call, .entered slot sound⟩

/-- A `close` whose stack pointer is in a region. -/
theorem mapped_stack_answers : ∃ reply, syscallStub (stackCaller 7) 19 = .ok reply ∧ Answer (stackCaller 7) 19 reply := by
  refine (syscall_gate_answers threePages_regions 19).mpr ⟨by decide, ?_⟩
  intro e entry
  have close : sysClose = e := Option.some.inj (Option.some.inj entry)
  subst close
  refine ⟨?_, fun n member => absurd member not_mem_nil⟩
  intro arg member
  cases mem_singleton.mp member
  exact ⟨7, stackCaller_argument 7⟩

/-- A `close` whose stack pointer is in no region, and the number after the last call. -/
theorem unmapped_stack_panics : syscallStub { stackCaller 0 with esp := 0x8000 } 19 = .error .panic ∧
    syscallStub (stackCaller 0) 60 = .error .wild := ⟨rfl, rfl⟩

end GingerOs.Sys
