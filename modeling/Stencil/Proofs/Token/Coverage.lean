import Stencil.Proofs.Token.Sighting

/-!
# Tokens cover the page

The tokens of a page are not empty and lie side by side from its start on, so that they make up the
page as far as it was cut. Where cutting stops early the error points behind the last token, except
that a missing end tag is reported at the innermost start tag that was left open.

`Covers` says this of the tokens from any place on. `Page.cut_spec` is the statement about a run
from any state that meets `Progress.Sound`; `TokenStream.tokens_cover` draws the conclusion for
whole pages.
-/

set_option autoImplicit false

namespace Stencil

namespace Token

/-- The start tags that are left open behind one more token, the innermost first. -/
def track (unclosed : List Token) (t : Token) : List Token :=
  match t.kind with
  | .startTag => t :: unclosed
  | .endTag => unclosed.tail
  | _ => unclosed

/-- The start tags that a row of tokens leaves open, the innermost first. -/
def unclosed (ts : List Token) : List Token := ts.foldl track []

/-- The characters of a row of tokens. -/
def totalLength (ts : List Token) : Nat := (ts.map (·.value.length)).sum

/-- Tokens that are not empty and lie side by side in a source, from an offset on. -/
def Tiles (source : Text) : Nat → List Token → Prop
  | _, [] => True
  | offset, t :: ts =>
    t.value ≠ [] ∧ t.offset = offset ∧ t.value = (source.drop offset).take t.value.length ∧
      Tiles source (offset + t.value.length) ts

/-- What start tags are open is what their offsets say. -/
theorem map_offset_track (unclosed : List Token) (t : Token) :
    (track unclosed t).map (·.offset) = t.kind.openOffsets t.offset (unclosed.map (·.offset)) := by
  unfold track Kind.openOffsets
  cases t.kind <;> simp

/-- An open start tag was open before, or is the token at hand. -/
theorem mem_track {unclosed : List Token} {t t' : Token} (h : t' ∈ track unclosed t) :
    t' = t ∨ t' ∈ unclosed := by
  unfold track at h
  split at h
  · exact List.mem_cons.1 h
  · exact Or.inr (List.mem_of_mem_tail h)
  · exact Or.inr h

/-- Only start tags are left open. -/
theorem kind_of_mem_foldl_track {ts before : List Token} {t : Token}
    (hbefore : ∀ t ∈ before, t.kind = .startTag) (h : t ∈ ts.foldl track before) :
    t.kind = .startTag := by
  induction ts generalizing before with
  | nil => exact hbefore t h
  | cons t' ts ih =>
      refine ih (fun t₀ ht₀ => ?_) h
      unfold track at ht₀
      split at ht₀
      · rename_i hkind
        rcases List.mem_cons.1 ht₀ with rfl | ht₀
        · exact hkind
        · exact hbefore t₀ ht₀
      · exact hbefore t₀ (List.mem_of_mem_tail ht₀)
      · exact hbefore t₀ ht₀

/-- Tokens that lie side by side make up a slice of the source. -/
theorem Tiles.flatMap_value {source : Text} {offset : Nat} {ts : List Token}
    (h : Tiles source offset ts) :
    ts.flatMap (·.value) = (source.drop offset).take (totalLength ts) := by
  induction ts generalizing offset with
  | nil => simp [totalLength]
  | cons t ts ih =>
      obtain ⟨-, -, hslice, hrest⟩ := h
      have hsum : totalLength (t :: ts) = t.value.length + totalLength ts := by
        simp [totalLength]
      rw [List.flatMap_cons, ih hrest, hsum, List.take_add, ← List.drop_drop, ← hslice]

/-- Behind the first of the tokens that make up the rest of the source stand the others. -/
theorem Tiles.drop_stop {source : Text} {offset : Nat} {t : Token} {ts : List Token}
    (h : Tiles source offset (t :: ts)) (hlength : offset + totalLength (t :: ts) = source.length) :
    source.drop t.stop = ts.flatMap (·.value) := by
  obtain ⟨-, hoffset, -, hrest⟩ := h
  have hsum : totalLength (t :: ts) = t.value.length + totalLength ts := by
    simp [totalLength]
  rw [hrest.flatMap_value, stop, hoffset, List.take_of_length_le]
  rw [List.length_drop]
  omega

/-- A token among tokens that lie side by side starts where those before it end. -/
theorem Tiles.of_append {source : Text} {offset : Nat} {before after : List Token} {t : Token}
    (h : Tiles source offset (before ++ t :: after)) :
    t.value ≠ [] ∧ t.offset = offset + totalLength before ∧
      t.value = (source.drop t.offset).take t.value.length := by
  induction before generalizing offset with
  | nil =>
      obtain ⟨hne, hoffset, hslice, -⟩ := h
      refine ⟨hne, by simpa [totalLength] using hoffset, ?_⟩
      rw [hoffset]
      exact hslice
  | cons b before ih =>
      obtain ⟨-, -, -, hrest⟩ := h
      obtain ⟨hne, hoffset, hslice⟩ := ih hrest
      refine ⟨hne, ?_, hslice⟩
      rw [hoffset]
      simp only [totalLength, List.map_cons, List.sum_cons]
      omega

end Token

/-- A state of cutting that fits the source and the start tags that the tokens so far leave open. -/
structure Progress.Sound (source : Text) (unclosed : List Token) (s : Progress) : Prop where
  within : s.place.Within source
  /-- What was reported belongs to the rest of the source. -/
  faults : Attempt.FaultsFrom source Cause.IsNotMissing s.offset
    { store := s.store, fatal := s.fatal }
  /-- The open tags are the start tags that were left open. -/
  offsets : s.openTags.map (·.offset) = unclosed.map (·.offset)
  /-- The open tags wait for the end tags of their own names. -/
  standard : ∀ tag ∈ s.openTags, tag.IsStandard
  /-- The start tags that were left open lie in front of the place. -/
  unclosed_le : ∀ t ∈ unclosed, t.offset ≤ source.length

/-- Cutting does not go beyond the source. -/
theorem Progress.Sound.offset_le {source : Text} {unclosed : List Token} {s : Progress}
    (h : s.Sound source unclosed) : s.offset ≤ source.length :=
  h.within.offset_le

/-- What is left is the source behind the offset. -/
theorem Progress.Sound.rest_eq {source : Text} {unclosed : List Token} {s : Progress}
    (h : s.Sound source unclosed) : s.rest = source.drop s.offset :=
  h.within.rest_eq

namespace Page

/-- Cutting off one token keeps the state sound, and the token is a slice of the source that is not
empty. -/
theorem next_spec {source : Text} (file : Option String) (n : Int) {unclosed : List Token}
    {s : Progress} (hs : s.Sound source unclosed) :
    match (standard source file n).next s with
    | .error failure => failure.PointsFrom source s.offset
    | .ok (t, s') =>
      t.value ≠ [] ∧ t.offset = s.offset ∧ t.value = (source.drop s.offset).take t.value.length ∧
        s'.offset = s.offset + t.value.length ∧ s'.Sound source (Token.track unclosed t) := by
  have hsight := sight_spec file n hs.within hs.faults hs.standard
  unfold next
  simp only [bind, Except.bind, pure, Except.pure]
  generalize (standard source file n).sight s = seen at hsight ⊢
  cases seen with
  | error failure => exact hsight
  | ok sighting =>
      obtain ⟨hwithin, hlt, hfaults, hoffsets, hstandard⟩ := hsight
      have hend := hwithin.offset_le
      have hlen : (s.rest.take (sighting.stop.offset - s.offset)).length =
          sighting.stop.offset - s.offset := by
        rw [hs.rest_eq, List.length_take, List.length_drop]
        omega
      simp only [Progress.offset_place] at hlt hoffsets
      dsimp only
      refine ⟨?_, rfl, ?_, ?_, ⟨rfl, hwithin.split⟩, hfaults, ?_, hstandard, ?_⟩
      · rw [← List.length_pos_iff]
        omega
      · rw [hlen, hs.rest_eq]
      · show sighting.stop.offset = _
        rw [hlen]
        omega
      · rw [Token.map_offset_track, hoffsets, hs.offsets]
      · intro t ht
        rcases Token.mem_track ht with rfl | ht
        · exact hs.offset_le
        · exact hs.unclosed_le t ht

end Page

/-- The tokens from an offset on, and why there are no more of them, given the start tags that the
tokens before them leave open. -/
structure Covers (source : Text) (unclosed : List Token) (offset : Nat) (tokens : List Token)
    (failure : Option LexFailure) : Prop where
  /-- The tokens lie side by side. -/
  tiles : Token.Tiles source offset tokens
  /-- They end inside the source. -/
  end_le : offset + Token.totalLength tokens ≤ source.length
  /-- Without a failure they reach the end of the source. -/
  complete : failure = none → offset + Token.totalLength tokens = source.length
  /-- An error points behind the tokens, or reports a missing end tag for the innermost start tag
  that they leave open. -/
  error : ∀ e, failure = some (.error e) →
    LexFailure.PointsFrom source (offset + Token.totalLength tokens) (.error e) ∨
      ∃ name t, e.cause = .endTag name .missing ∧
        offset + Token.totalLength tokens = source.length ∧
        (tokens.foldl Token.track unclosed).head? = some t ∧ e.offset = some (t.offset : Int)

section Covers

variable {source : Text} {unclosed : List Token} {offset : Nat}

/-- At the end of the source no token is missing. -/
theorem covers_nil (hend : offset = source.length) : Covers source unclosed offset [] none :=
  ⟨trivial, hend.le, fun _ => hend, fun _ he => nomatch he⟩

/-- A failure that points further on covers what is left. -/
theorem covers_nil_of_pointsFrom {failure : LexFailure} (hle : offset ≤ source.length)
    (h : failure.PointsFrom source offset) : Covers source unclosed offset [] (some failure) := by
  refine ⟨trivial, hle, nofun, fun e he => Or.inl ?_⟩
  rw [Option.some.injEq] at he
  rw [← he]
  exact h

/-- A token in front of tokens that cover the rest covers from its offset on. -/
theorem Covers.cons {t : Token} {tokens : List Token} {failure : Option LexFailure}
    (hne : t.value ≠ []) (hoffset : t.offset = offset)
    (hslice : t.value = (source.drop offset).take t.value.length)
    (h : Covers source (Token.track unclosed t) (offset + t.value.length) tokens failure) :
    Covers source unclosed offset (t :: tokens) failure := by
  have hsum : offset + Token.totalLength (t :: tokens) =
      offset + t.value.length + Token.totalLength tokens := by
    simp only [Token.totalLength, List.map_cons, List.sum_cons]
    omega
  obtain ⟨htiles, hle, hdone, herror⟩ := h
  rw [← hsum] at hle hdone herror
  exact ⟨⟨hne, hoffset, hslice, htiles⟩, hle, hdone, herror⟩

end Covers

namespace Page

/-- At the end of the source the innermost start tag that was left open is missing its end tag. -/
theorem covers_missing {source : Text} (file : Option String) (n : Int) {unclosed : List Token}
    {s : Progress} (hs : s.Sound source unclosed) (hend : s.offset = source.length) {tag : OpenTag}
    {below : List OpenTag} (hopen : s.openTags = tag :: below) :
    Covers source unclosed s.offset []
      (some ((standard source file n).fault (.endTag tag.name .missing) tag.offset)) := by
  refine ⟨trivial, hend.le, nofun, fun e he => Or.inr ?_⟩
  have hoffsets := hs.offsets
  rw [hopen] at hoffsets
  cases unclosed with
  | nil => cases hoffsets
  | cons t unclosed =>
      have hoffset : tag.offset = t.offset := by
        rw [List.map_cons, List.map_cons, List.cons.injEq] at hoffsets
        exact hoffsets.1
      have hle := hs.unclosed_le t (List.mem_cons_self ..)
      rw [fault, Option.some.injEq, LexFailure.error.injEq] at he
      subst he
      refine ⟨tag.name, t, rfl, hend, rfl, ?_⟩
      simp only [LexError.located, standard, hoffset]
      rw [Location.offset_ofOffset hle]

/-- Cutting off tokens from a sound state. -/
theorem cut_spec {source : Text} (file : Option String) (n : Int) (count : Nat)
    {unclosed : List Token} {s : Progress} (hs : s.Sound source unclosed) {tokens : List Token}
    {failure : Option LexFailure}
    (h : (standard source file n).cut count s = (tokens, failure)) :
    Covers source unclosed s.offset tokens failure := by
  induction count generalizing s unclosed tokens failure with
  | zero =>
      cases h
      exact covers_nil_of_pointsFrom hs.offset_le trivial
  | succ count ih =>
      unfold cut at h
      split at h
      · rename_i hempty
        have hend : s.offset = source.length := by
          have hdrop : source.drop s.offset = [] := by
            rw [← hs.rest_eq]
            simpa using hempty
          have hge := List.drop_eq_nil_iff.1 hdrop
          have hle := hs.offset_le
          omega
        split at h
        · cases h
          exact covers_nil hend
        · rename_i tag below hopen
          cases h
          exact covers_missing file n hs hend hopen
      · have hnext := next_spec file n hs
        split at h
        · rename_i failure' hfailure
          rw [hfailure] at hnext
          cases h
          exact covers_nil_of_pointsFrom hs.offset_le hnext
        · rename_i t s' hok
          rw [hok] at hnext
          obtain ⟨hne, hoffset, hslice, hoffset', hs'⟩ := hnext
          generalize hrun : (standard source file n).cut count s' = run at h
          obtain ⟨tokens', failure'⟩ := run
          cases h
          have hcovers := ih hs' hrun
          rw [hoffset'] at hcovers
          exact hcovers.cons hne hoffset hslice

end Page

namespace TokenStream

/-- A source is cut with more steps than it has characters. -/
theorem exists_steps (source : Text) (settings : Settings) (file : Option String)
    (elEnabled : Option Bool) :
    ∃ count > source.length, (Page.standard source file settings.excerptLength).cut count
        (start source (elEnabled.getD settings.elEnabled)) =
      ((ofSource source settings file elEnabled).tokens,
        (ofSource source settings file elEnabled).failure) := by
  refine ⟨Matcher.patience + (source.length + 1), by omega, ?_⟩
  unfold ofSource under
  rw [Page.ofSource_standard]
  rfl

/-- The page grammar cuts a source from its start. -/
theorem cut_eq_ofSource (source : Text) (settings : Settings) (file : Option String)
    (elEnabled : Option Bool) :
    ∃ count, (Page.standard source file settings.excerptLength).cut count
        (start source (elEnabled.getD settings.elEnabled)) =
      ((ofSource source settings file elEnabled).tokens,
        (ofSource source settings file elEnabled).failure) := by
  obtain ⟨count, -, hcut⟩ := exists_steps source settings file elEnabled
  exact ⟨count, hcut⟩

/-- Cutting starts in a sound state. -/
theorem sound_start (source : Text) (elEnabled : Bool) :
    (start source elEnabled).Sound source [] where
  within := ⟨rfl, rfl⟩
  faults := Attempt.faultsFrom_of_clean rfl _
  offsets := rfl
  standard := by simp [start]
  unclosed_le := by simp

/-- A stream is complete with its tokens if it did not fail. -/
theorem complete_eq_ok_iff {stream : TokenStream} {tokens : List Token} :
    stream.complete = .ok tokens ↔ stream.tokens = tokens ∧ stream.failure = none := by
  unfold complete
  split <;> simp_all

/-- The tokens of a page that was cut to its end lie side by side from its start to its end. -/
theorem tiles_of_complete {source : Text} {settings : Settings} {file : Option String}
    {elEnabled : Option Bool} {tokens : List Token}
    (h : (ofSource source settings file elEnabled).complete = .ok tokens) :
    Token.Tiles source 0 tokens ∧ Token.totalLength tokens = source.length := by
  obtain ⟨count, hcut⟩ := cut_eq_ofSource source settings file elEnabled
  obtain ⟨htiles, -, hdone, -⟩ := Page.cut_spec file settings.excerptLength count
    (sound_start source (elEnabled.getD settings.elEnabled)) hcut
  have hstart : (start source (elEnabled.getD settings.elEnabled)).offset = 0 := rfl
  rw [hstart, Nat.zero_add] at hdone
  rw [hstart] at htiles
  obtain ⟨rfl, hnone⟩ := complete_eq_ok_iff.1 h
  exact ⟨htiles, hdone hnone⟩

/-- The tokens of a page that was cut to its end make up the page. -/
theorem flatMap_value_of_complete {source : Text} {settings : Settings} {file : Option String}
    {elEnabled : Option Bool} {tokens : List Token}
    (h : (ofSource source settings file elEnabled).complete = .ok tokens) :
    tokens.flatMap (·.value) = source := by
  obtain ⟨htiles, hlength⟩ := tiles_of_complete h
  rw [htiles.flatMap_value, hlength, List.drop_zero, List.take_length]

end TokenStream

end Stencil
