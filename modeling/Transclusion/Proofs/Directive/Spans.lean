import Transclusion.Proofs.Directive.Tokens

/-!
# The spans of a walk

A walk over the tokens of a text holds byte offsets, and may go back any number of times. Yet every
offset it holds lies between two characters of its text, and no span of it ends before it starts.

* `Span.Fits` — a span that can be cut out of a text;
* `Context.Sound`, `Move.Sound`, `Walker.Sound` — what holds at each place of a walk;
* `Context.Sound.read`, `Walker.Sound.step` — one token keeps it;
* `Walker.Sound.run`, `marks_fit` — so does a whole walk, and its marks fit the text.
-/

namespace Transclusion.Directive.Walk

variable {text : List Char}

/-! ## Boundaries -/

/-- The byte offset lies between two characters of the text, or at one of its ends. -/
def Boundary (text : List Char) (n : Nat) : Prop :=
  ∃ before behind, text = before ++ behind ∧ n = bytes before

/-- The span does not end before it starts, and no character of the text lies across its ends. -/
structure Span.Fits (text : List Char) (s : Span) : Prop where
  start_le_stop : s.start ≤ s.stop
  boundary_start : Boundary text s.start
  boundary_stop : Boundary text s.stop

theorem Boundary.fits {n : Nat} (h : Boundary text n) : Span.Fits text ⟨n, n⟩ :=
  ⟨Nat.le_refl n, h, h⟩

/-- A span may be drawn out to any later boundary. -/
theorem Span.Fits.extend {start stop stop' : Nat} (h : Span.Fits text ⟨start, stop⟩)
    (hle : stop ≤ stop') (hstop : Boundary text stop') : Span.Fits text ⟨start, stop'⟩ :=
  ⟨Nat.le_trans h.start_le_stop hle, h.boundary_start, hstop⟩

/-- The tokens are those of the text from the byte `n` on. -/
def Unread (text : List Char) (n : Nat) (unread : List Lexeme) : Prop :=
  ∃ before behind, text = before ++ behind ∧ n = bytes before ∧ unread = lexemes n behind

theorem unread_lexemes (text : List Char) : Unread text 0 (lexemes 0 text) :=
  ⟨[], text, rfl, rfl, rfl⟩

theorem Unread.boundary {n : Nat} {unread : List Lexeme} (h : Unread text n unread) :
    Boundary text n := by
  obtain ⟨before, behind, htext, hn, -⟩ := h
  exact ⟨before, behind, htext, hn⟩

/-- The first unread token starts where reading stopped, and reading goes on behind it. -/
theorem Unread.of_cons {n : Nat} {lexeme : Lexeme} {unread : List Lexeme}
    (h : Unread text n (lexeme :: unread)) :
    lexeme.start = n ∧ n ≤ lexeme.stop ∧ Unread text lexeme.stop unread := by
  obtain ⟨before, behind, rfl, rfl, hunread⟩ := h
  cases behind with
  | nil => simp at hunread
  | cons c cs =>
    rw [lexemes_cons, List.cons.injEq] at hunread
    obtain ⟨rfl, rfl⟩ := hunread
    refine ⟨rfl, Nat.le_add_right _ _, before ++ (next c cs).2.1, (next c cs).2.2, ?_, ?_, rfl⟩
    · rw [List.append_assoc, next_append]
    · rw [bytes_append]

/-! ## What holds at each place -/

/-- The spans of a directive and its parts. -/
def Marks.spans (m : Marks) : List Span :=
  m.span :: m.label :: m.target :: m.secondary.toList

/-- A directive and all its parts can be cut out of the text. -/
structure Marks.Fit (text : List Char) (m : Marks) : Prop where
  span : m.span.Fits text
  label : m.label.Fits text
  target : m.target.Fits text
  secondary : ∀ s ∈ m.secondary, s.Fits text

theorem Marks.Fit.of_mem_spans {m : Marks} (h : m.Fit text) : ∀ s ∈ m.spans, s.Fits text := by
  simp only [Marks.spans, List.forall_mem_cons, Option.mem_toList]
  exact ⟨h.span, h.label, h.target, h.secondary⟩

/-- Whatever a walk holds that has read the text up to the byte `n` fits the text: the closed spans,
the open ones if they were closed at `n`, and the tokens to go back to. -/
def Context.Sound (text : List Char) (n : Nat) : Context → Prop
  | .outside => True
  | .label start labelStart => Span.Fits text ⟨start, n⟩ ∧ Span.Fits text ⟨labelStart, n⟩
  | .closed resume start name =>
      (∃ m, Unread text m resume) ∧ Span.Fits text ⟨start, n⟩ ∧ name.Fits text
  | .target resume start name targetStart =>
      (∃ m, Unread text m resume) ∧ Span.Fits text ⟨start, n⟩ ∧ name.Fits text ∧
        Span.Fits text ⟨targetStart, n⟩
  | .secondary resume start name goal secondaryStart =>
      (∃ m, Unread text m resume) ∧ Span.Fits text ⟨start, n⟩ ∧ name.Fits text ∧
        goal.Fits text ∧ Span.Fits text ⟨secondaryStart, n⟩

/-- What a token does leaves a sound walk, where the token ends at the byte `stop`. -/
def Move.Sound (text : List Char) (stop : Nat) : Move → Prop
  | .on context => context.Sound text stop
  | .back resume => ∃ n, Unread text n resume
  | .found marks => marks.Fit text

/-- A directive is closed at a boundary, whatever secondary text it has. -/
theorem Move.sound_close {stop : Nat} {span name goal : Span} {secondary : Option Span}
    (hspan : span.Fits text) (hname : name.Fits text) (hgoal : goal.Fits text)
    (hsecondary : ∀ s ∈ secondary, s.Fits text) :
    (Move.close span name goal secondary).Sound text stop :=
  ⟨hspan, hname, hgoal, fun s hs => hsecondary s (Option.mem_filter_iff.mp hs).1⟩

/-- A token keeps a walk sound, in every context. -/
theorem Context.Sound.read {context : Context} {lexeme : Lexeme} {unread : List Lexeme}
    (h : context.Sound text lexeme.start) (hopen : Boundary text lexeme.start)
    (hle : lexeme.start ≤ lexeme.stop) (hunread : Unread text lexeme.stop unread) :
    (context.read unread lexeme).Sound text lexeme.stop := by
  have hstop := hunread.boundary
  cases context with
  | outside =>
    rw [Context.read]
    split
    · exact ⟨hopen.fits.extend hle hstop, hstop.fits⟩
    · trivial
  | label start labelStart =>
    obtain ⟨hstart, hlabel⟩ := h
    rw [Context.read]
    split
    · exact ⟨⟨_, hunread⟩, hstart.extend hle hstop, hlabel⟩
    · exact ⟨hstart.extend hle hstop, hlabel.extend hle hstop⟩
  | closed resume start name =>
    obtain ⟨hresume, hstart, hname⟩ := h
    rw [Context.read]
    split
    · exact ⟨hresume, hstart.extend hle hstop, hname, hstop.fits⟩
    · exact hresume
  | target resume start name targetStart =>
    obtain ⟨hresume, hstart, hname, hgoal⟩ := h
    have hspan := hstart.extend hle hstop
    simp only [Context.read]
    split
    · exact hresume
    · split
      · exact hresume
      · exact ⟨hresume, hspan, hname, hgoal, hstop.fits⟩
    · split
      · exact hresume
      · exact Move.sound_close hspan hname hgoal (by simp)
    · exact ⟨hresume, hspan, hname, hgoal.extend hle hstop⟩
  | secondary resume start name goal secondaryStart =>
    obtain ⟨hresume, hstart, hname, hgoal, hsecondary⟩ := h
    have hspan := hstart.extend hle hstop
    simp only [Context.read]
    split
    · exact hresume
    · exact Move.sound_close hspan hname hgoal fun s hs => (Option.some.inj hs) ▸ hsecondary
    · exact ⟨hresume, hspan, hname, hgoal, hsecondary.extend hle hstop⟩

/-! ## The whole walk -/

/-- A walk that stands at some byte of the text, and whose marks fit the text. -/
def Walker.Sound (text : List Char) (w : Walker) : Prop :=
  ∃ n, Unread text n w.unread ∧ w.context.Sound text n ∧ ∀ m ∈ w.found, m.Fit text

theorem Walker.sound_ofText (text : String) : (ofText text).Sound text.toList :=
  ⟨0, unread_lexemes text.toList, trivial, by simp [ofText]⟩

/-- One step keeps a walk sound. -/
theorem Walker.Sound.step {w w' : Walker} (h : w.Sound text) (hstep : w.step = some w') :
    w'.Sound text := by
  obtain ⟨context, unread, found⟩ := w
  obtain ⟨n, hunread, hcontext, hfound⟩ := h
  cases unread with
  | nil => exact nomatch hstep
  | cons lexeme unread =>
    obtain ⟨rfl, hle, hbehind⟩ := hunread.of_cons
    have hmove := hcontext.read hunread.boundary hle hbehind
    simp only [Walker.step] at hstep
    split at hstep
    · next context' hread =>
      cases hstep
      rw [hread] at hmove
      exact ⟨_, hbehind, hmove, hfound⟩
    · next resume hread =>
      cases hstep
      rw [hread] at hmove
      obtain ⟨n, hresume⟩ := hmove
      exact ⟨n, hresume, trivial, hfound⟩
    · next marks hread =>
      cases hstep
      rw [hread] at hmove
      refine ⟨_, hbehind, trivial, List.forall_mem_append.mpr ⟨hfound, ?_⟩⟩
      exact List.forall_mem_singleton.mpr hmove

/-- So does a whole walk, whatever it goes back to on its way. -/
theorem Walker.Sound.run {w : Walker} (h : w.Sound text) : ∀ m ∈ w.run, m.Fit text := by
  fun_induction Walker.run w with
  | case1 w hstep =>
    obtain ⟨-, -, -, hfound⟩ := h
    exact hfound
  | case2 w w' hstep ih => exact ih (h.step hstep)

/-- The marks of a text fit the text. -/
theorem marks_fit (text : String) : ∀ m ∈ marks text, m.Fit text.toList := by
  rw [marks]
  split
  · exact (Walker.sound_ofText text).run
  · simp

end Transclusion.Directive.Walk
