import RefDoc.Proofs.Path
import RefDoc.Proofs.Steps
import RefDoc.Reference.Resolver
import RefDoc.Table.Lemmas

namespace RefDoc.Resolver

variable {σ : Type u} (r : Resolver σ)

def HasPage (name : String) : Prop :=
  ∃ symbol, r.symbols.find? name = some symbol ∧ r.ownsPage name symbol = true

/-- The page that a name is sent to, and what stands behind its path. -/
inductive SentTo (name : String) : String → String → Prop
  | own (hp : r.HasPage (r.canonical name)) : SentTo name (r.canonical name) ""
  | parent {parent last : String} (hp : ¬ r.HasPage (r.canonical name))
    (hs : Name.split? (r.canonical name) = some (parent, last))
    (hi : r.canonical parent ∈ r.symbols) :
    SentTo name (r.canonical parent) ("#" ++ last)

variable {r} {name root address page anchor : String}

theorem any_ownsPage_iff :
    (r.symbols.find? name).any (r.ownsPage name) = true ↔ r.HasPage name := by
  rw [Option.any_eq_true, HasPage]

theorem url?_eq_some_iff : r.url? name root = some address ↔
    ∃ page anchor, r.SentTo name page anchor ∧
      address = Url.join root (Name.pagePath page) ++ anchor := by
  rw [url?]
  constructor
  · intro h
    dsimp only at h
    split at h
    · next hp =>
      refine ⟨_, _, .own (any_ownsPage_iff.mp hp), ?_⟩
      rw [String.append_empty, Option.some.inj h]
    · next hp =>
      split at h
      · cases h
      · next parent last hs =>
        split at h
        · next hi =>
          refine ⟨_, _, .parent (mt any_ownsPage_iff.mpr hp) hs hi, ?_⟩
          rw [← Option.some.inj h, String.append_assoc]
        · cases h
  · intro hx
    obtain ⟨page, anchor, hs, rfl⟩ := hx
    cases hs with
    | own hp => rw [if_pos (any_ownsPage_iff.mpr hp), String.append_empty]
    | parent hp hs hi =>
      rw [if_neg (mt any_ownsPage_iff.mp hp)]
      simp only [hs, if_pos hi, String.append_assoc]

theorem url_eq_ok_iff : r.url name root = .ok address ↔ r.url? name root = some address := by
  rw [url]
  split
  · next h => simp [h]
  · next h => simp [h]

theorem SentTo.url_eq (h : r.SentTo name page anchor) (root : String) :
    r.url name root = .ok (Url.join root (Name.pagePath page) ++ anchor) :=
  url_eq_ok_iff.mpr (url?_eq_some_iff.mpr ⟨page, anchor, h, rfl⟩)

/-- Two names have one address just when they are sent to one path and one anchor on it. -/
theorem SentTo.url_eq_iff {other : String} (h : r.SentTo name page anchor) :
    r.url name root = r.url other root ↔ ∃ page', r.SentTo other page' anchor ∧
      Name.pagePath page' = Name.pagePath page := by
  rw [h.url_eq, eq_comm, url_eq_ok_iff, url?_eq_some_iff]
  simp only [Url.join_append, Url.join_right_inj, Name.pagePath_append_eq_iff]
  constructor
  · rintro ⟨page', _, hs, hp, rfl⟩
    exact ⟨page', hs, hp.symm⟩
  · rintro ⟨page', hs, hp⟩
    exact ⟨page', anchor, hs, hp.symm, rfl⟩

theorem exists_url_iff : (∃ address, r.url name root = .ok address) ↔
    ∃ page anchor, r.SentTo name page anchor := by
  simp only [url_eq_ok_iff, url?_eq_some_iff]
  constructor
  · rintro ⟨_, page, anchor, hs, -⟩
    exact ⟨page, anchor, hs⟩
  · rintro ⟨page, anchor, hs⟩
    exact ⟨_, page, anchor, hs, rfl⟩

theorem linkTo_eq_ok_iff {text linked : String} {asCode : Bool} :
    r.linkTo text name root asCode = .ok linked ↔ ∃ address, r.url name root = .ok address ∧
      linked = link (if asCode then code text else text) address := by
  rw [linkTo, bind_eq_ok_iff]
  simp [pure, Except.pure, eq_comm]

theorem HasPage.mem (h : r.HasPage name) : name ∈ r.symbols := by
  obtain ⟨symbol, hs, -⟩ := h
  exact Table.mem_of_find? hs

theorem SentTo.mem (h : r.SentTo name page anchor) : page ∈ r.symbols := by
  cases h with
  | own hp => exact hp.mem
  | parent hp hs hi => exact hi

theorem SentTo.exists_canonical (h : r.SentTo name page anchor) :
    ∃ known, page = r.canonical known := by
  cases h with
  | own => exact ⟨name, rfl⟩
  | @parent parent => exact ⟨parent, rfl⟩

theorem SentTo.anchor_eq (h : r.SentTo name page anchor) :
    anchor = "" ∨ ∃ last, anchor = "#" ++ last := by
  cases h with
  | own => exact .inl rfl
  | @parent _ last => exact .inr ⟨last, rfl⟩

theorem ofText_eq_symbol {text : String} (h : text.toList.head? ≠ some '$') :
    Target.ofText text = .symbol text := by
  rw [Target.ofText]
  split
  · next hs => simp [hs] at h
  · rfl

theorem target_eq_symbol {body : String} (h : body.toList.head? ≠ some '$') :
    ∃ name, (Reference.ofBody body).target = .symbol name := by
  rw [Reference.ofBody]
  split
  · exact ⟨body, ofText_eq_symbol h⟩
  · next target text hc =>
    split
    · exact ⟨body, ofText_eq_symbol h⟩
    · next hne =>
      obtain ⟨c, cs, rfl⟩ := List.exists_cons_of_ne_nil hne
      rw [(Text.append_of_cutLast? hc).1] at h
      exact ⟨_, ofText_eq_symbol (by simpa using h)⟩

theorem exists_sentTo_of_resolveBody {body linked : String}
    (hn : (Reference.ofBody body).target = .symbol name)
    (h : r.resolveBody body root = .ok linked) :
    ∃ page anchor, r.SentTo name page anchor ∧
      linked = link ((Reference.ofBody body).text?.getD (code name))
        (Url.join root (Name.pagePath page) ++ anchor) := by
  simp only [resolveBody, hn] at h
  split at h
  · split at h
    · cases h
    · next address ha =>
      obtain ⟨page, anchor, hs, rfl⟩ := url?_eq_some_iff.mp ha
      exact ⟨page, anchor, hs, (Except.ok.inj h).symm⟩
  · cases h

theorem mem_segments_of_split? {parent last : String} (h : Name.split? name = some (parent, last)) :
    last ∈ Name.segments name := by
  obtain ⟨rfl, hdot⟩ := Name.eq_of_split? h
  have hl : Text.splitAt '.' last.toList = [last.toList] := by
    rw [Text.splitAt_eq_splitOn, List.splitOn_eq_singleton hdot]
  have hs : (parent ++ "." ++ last).toList = parent.toList ++ '.' :: last.toList := by
    simp [String.toList_append]
  rw [Name.segments, hs, Text.splitAt_append_cons, hl]
  simp

theorem SentTo.slash_not_mem (h : r.SentTo name page anchor)
    (hc : Name.WellFormed (r.canonical name)) : '/' ∉ anchor.toList := by
  cases h with
  | own hp => exact List.not_mem_nil
  | parent hp hs hi => simpa using (hc _ (mem_segments_of_split? hs)).2

/-- The address of a symbol leads from any page to the page that shows the symbol. -/
theorem url_leads (r : Resolver σ) {source name address : String} (hsource : Name.WellFormed source)
    (hname : Name.WellFormed (r.canonical name))
    (hpage : ∀ page anchor, r.SentTo name page anchor → Name.WellFormed page)
    (h : r.url name (Name.rootPath source) = .ok address) :
    ∃ page anchor, r.SentTo name page anchor ∧
      String.intercalate "/" (Url.follow (Name.pagePath source) address) =
        Name.pagePath page ++ anchor ∧
      ".." ∉ Url.follow (Name.pagePath source) address := by
  obtain ⟨page, anchor, hs, rfl⟩ := url?_eq_some_iff.mp (url_eq_ok_iff.mp h)
  have hp := hpage page anchor hs
  have ha := hs.slash_not_mem hname
  refine ⟨page, anchor, hs, ?_, ?_⟩
  · rw [Name.follow_pagePath hsource hp ha, Url.intercalate_segments]
  · rw [Name.follow_pagePath hsource hp ha]
    intro hm
    exact (Name.named_of_mem_pagePath hp ha hm).2.2 rfl

theorem url_leads_from_deeper :
    ∃ r : Resolver Bool, r.url "m.C.f" (Name.rootPath "m.D.E") = .ok "../../m/C.md#f" ∧
      ∃ page anchor, r.SentTo "m.C.f" page anchor ∧
        String.intercalate "/" (Url.follow (Name.pagePath "m.D.E") "../../m/C.md#f") =
          Name.pagePath page ++ anchor ∧
        ".." ∉ Url.follow (Name.pagePath "m.D.E") "../../m/C.md#f" := by
  let r : Resolver Bool :=
    ⟨.ofList [("m.C", true), ("m.C.f", false)], .empty, .empty, [], fun _ page => page⟩
  have hu : r.url "m.C.f" (Name.rootPath "m.D.E") = .ok "../../m/C.md#f" := by decide +kernel
  have hp (page anchor : String) (hs : r.SentTo "m.C.f" page anchor) : Name.WellFormed page := by
    cases hs with
    | own => decide +kernel
    | parent hp hs hi =>
      have he : Name.split? (r.canonical "m.C.f") = some ("m.C", "f") := by decide +kernel
      cases hs.symm.trans he
      decide +kernel
  exact ⟨r, hu, url_leads r (by decide +kernel) (by decide +kernel) hp hu⟩

end RefDoc.Resolver
