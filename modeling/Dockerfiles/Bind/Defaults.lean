import Dockerfiles.Bind.Entrypoint

/-! # The default configuration in the volume

With the data directory at `/data`, the only record that the default files have
been copied is that `/data/etc` is a directory. A `mv` between file systems makes
that directory first. As long as no start is stopped while the files are being
copied, every launch of `named` finds all of them.
-/

namespace BindImage

open Shell FileTree

/-! ## The states between commands -/

/-- The files of the image's `/etc/bind` are at and below `x`. -/
def Defaults (image : FileSystem) (x : Place Text) (t : FileSystem) : Prop :=
  ∀ s content, image.kind (s ++ etcBind) = some (.file content) →
    t.kind (s ++ x) = some (.file content)

/-- Nothing has been copied, and `/etc/bind` is as in the image. -/
structure Fresh (image t : FileSystem) : Prop where
  base : Base t
  absent : t.kind dataEtc = none
  dir : t.kind etcBind = some .dir
  defaults : Defaults image etcBind t

structure Complete (image t : FileSystem) : Prop where
  base : Base t
  dir : t.kind dataEtc = some .dir
  defaults : Defaults image dataEtc t

/-- What holds wherever a start is stopped outside the copying. -/
def Consistent (image t : FileSystem) : Prop := Fresh image t ∨ Complete image t

/-- Complete, and `/etc/bind` is the link of the script. -/
structure Linked (c : Config) (image t : FileSystem) : Prop where
  complete : Complete image t
  link : t.kind etcBind = some (.link (target c.etcDir))

/-- `/etc/bind` leads to the directory `/data/etc`, with all the default files. -/
def Configured (c : Config) (image t : FileSystem) : Prop :=
  ∃ r n m, Walks t.kind [] [.name etcName, .name bindName] r n ∧
    Walks t.kind [] (path c.etcDir) r m ∧ t.kind r = some .dir ∧ Defaults image r t

variable {c : Config} {image t t' : FileSystem}

theorem Complete.mono (h : Complete image t)
    (hk : ∀ q x, ¬ etcBind <:+ q → ¬ varLibBind <:+ q → t.kind q = some x → t'.kind q = some x) :
    Complete image t' := by
  have hbelow : ∀ s, ¬ etcBind <:+ s ++ dataEtc ∧ ¬ varLibBind <:+ s ++ dataEtc := by
    intro s
    have hs : dataEtc <:+ s ++ dataEtc := List.suffix_append s dataEtc
    exact ⟨not_suffix_of_apart hs (by decide) (by decide),
      not_suffix_of_apart hs (by decide) (by decide)⟩
  refine ⟨h.base.mono ?_, hk _ _ (by decide) (by decide) h.dir, ?_⟩
  · rintro q (rfl | rfl | rfl) hq <;> exact hk _ _ (by decide) (by decide) hq
  · intro s content hs
    exact hk _ _ (hbelow s).1 (hbelow s).2 (h.defaults s content hs)

theorem Fresh.mono (h : Fresh image t) (hw : Within t.kind t'.kind)
    (hn : t'.kind dataEtc = t.kind dataEtc) : Fresh image t' where
  base := h.base.within hw
  absent := by rw [hn, h.absent]
  dir := hw _ _ h.dir
  defaults s content hs := hw _ _ (h.defaults s content hs)

/-- The data directory's `etc` is tested by what stands at its place. -/
theorem leadsToDir_etcDir (hd : c.dataPath = [.name dataName]) (h : Base t) :
    t.leadsToDir (path c.etcDir) = true → t.kind dataEtc ≠ none := by
  intro hl hnone
  rw [path_etcDir, hd] at hl
  obtain ⟨p, n, _, hw, _⟩ := Tree.leadsToDir_iff.mp hl
  exact not_walks_of_none hnone (hw.of_name h.data rfl)

theorem Linked.configured (hd : c.dataPath = [.name dataName])
    (ha : c.dataDir.head? = some '/') (h : Linked c image t) : Configured c image t := by
  have hroot := t.kind_root
  have hetc := h.complete.base.layout.etc_dir
  have hw : Walks t.kind [] (path c.etcDir) dataEtc 0 := by
    rw [path_etcDir, hd]
    exact t.walks_dir h.complete.dir
  have hlink := h.link
  rw [target_etcDir ha] at hlink
  rw [path_etcDir] at hw
  refine ⟨dataEtc, 1, 0, ?_, by rw [path_etcDir]; exact hw, h.complete.dir, h.complete.defaults⟩
  refine .entry hroot hetc rfl (.link hetc hlink ?_)
  simpa [Target.base] using hw

/-! ## The commands -/

/-- Adds nodes at most, and none at `/data/etc`. -/
def Harmless (cmd : Cmd FileSystem) : Prop :=
  ∀ t t', cmd.effect t = some t' ∨ cmd.cut t t' →
    Within t.kind t'.kind ∧ t'.kind dataEtc = t.kind dataEtc

theorem harmless_of_kind {cmd : Cmd FileSystem} (h : ∀ t t', cmd.Leaves t t' → t'.kind = t.kind) :
    Harmless cmd := by
  intro t t' hl
  rw [h t t' hl]
  exact ⟨Within.refl _, rfl⟩

theorem harmless_mkdir {cs : List (Comp Text)} (hc : .name etcName ∉ cs) :
    Harmless (mkdir c cs) := by
  intro t t' hl
  have hg := mkdir_leaves hl
  refine ⟨hg.within, ?_⟩
  rcases hg dataEtc with hn | ⟨_, _, n, p, hq, hm⟩
  · exact Tree.kind_congr hn
  · obtain ⟨rfl, _⟩ := List.cons.inj hq
    exact absurd hm hc

theorem harmless_chmodR (cs : List (Comp Text)) : Harmless (chmodR cs) :=
  harmless_of_kind fun _ _ => chmodR_leaves

theorem harmless_chownR (cs : List (Comp Text)) : Harmless (chownR c cs) :=
  harmless_of_kind fun _ _ => chownR_leaves

theorem harmless_chown (cs : List (Comp Text)) : Harmless (chown c cs) :=
  harmless_of_kind fun _ _ => chown_leaves

theorem Complete.within (h : Complete image t) (hw : Within t.kind t'.kind) : Complete image t' :=
  h.mono fun q x _ _ hx => hw q x hx

/-- States are all that the rules speak of here. -/
abbrev anyStep : FileSystem → FileSystem → Prop := fun _ _ => True

theorem Harmless.meets_consistent {cmd : Cmd FileSystem} (h : Harmless cmd) :
    cmd.Meets (Consistent image) anyStep (Consistent image) (Consistent image) := by
  refine .of_leaves (fun _ hs => hs) fun t t' hs hl => ⟨?_, trivial⟩
  obtain ⟨hw, hn⟩ := h t t' hl
  exact hs.imp (fun hf => hf.mono hw hn) fun hc => hc.within hw

theorem Harmless.meets_linked {cmd : Cmd FileSystem} (h : Harmless cmd) :
    cmd.Meets (Consistent image) anyStep (Linked c image) (Linked c image) := by
  refine .of_leaves (fun _ hs => .inr hs.complete) fun t t' hs hl => ⟨?_, trivial⟩
  obtain ⟨hw, _⟩ := h t t' hl
  exact ⟨hs.complete.within hw, hw _ _ hs.link⟩

theorem Fresh.complete_of_removing (h : Fresh image t) (hr : Tree.Removing etcBind dataEtc t t') :
    Complete image t' := by
  obtain ⟨hmoved, hout⟩ := hr
  have hkind : ∀ s, t'.kind (s ++ dataEtc) = t.kind (s ++ etcBind) :=
    fun s => Tree.kind_congr (hmoved s)
  have hkeep : ∀ q, ¬ dataEtc <:+ q → ¬ etcBind <:+ q → t.kind q = some .dir →
      t'.kind q = some .dir := by
    intro q h₁ h₂ hk
    rcases hout q h₁ with he | ⟨hb, _⟩
    · rw [← hk]
      exact Tree.kind_congr he
    · exact absurd hb h₂
  refine ⟨h.base.mono ?_, (hkind []).trans h.dir, ?_⟩
  · rintro q (rfl | rfl | rfl) hk <;> exact hkeep _ (by decide) (by decide) hk
  · intro s content hi
    rw [hkind s]
    exact h.defaults s content hi

/-- Stopped only after everything has been copied. -/
theorem mv_meets_complete (hd : c.dataPath = [.name dataName]) :
    (mv Tree.Removing [.name etcName] bindName c.dataPath etcName).Meets (Consistent image) anyStep
      (fun t => Consistent image t ∧ (!t.leadsToDir (path c.etcDir)) = true) (Complete image) := by
  refine .of_leaves (fun _ h => .inr h) fun t t' hpre hlv => ⟨?_, trivial⟩
  obtain ⟨hs, htest⟩ := hpre
  have hl : t.leadsToDir (path c.etcDir) = false := by simpa using htest
  have hfresh : Fresh image t := by
    refine hs.resolve_right fun hc => ?_
    rw [leads_etcDir hd hc.dir] at hl
    cases hl
  have hdata : ∀ p, t.resolve c.dataPath = .found p → p = [dataName] := by
    intro p hp
    rw [hd, hfresh.base.resolve_data] at hp
    exact (Result.found.inj hp).symm
  obtain ⟨_, hmove⟩ := hfresh.base.layout.mv_leaves hdata hl hlv
  exact hfresh.complete_of_removing (hmove.elim id id)

theorem rm_etcBind_meets :
    (rm [.name etcName] bindName).Meets (Consistent image) anyStep (Complete image)
      (fun t => Complete image t ∧ t.kind etcBind = none) := by
  refine rm_rule etc_mem_parents (fun _ h => .inr h) (fun _ h => h.base.layout) ?_
  intro t t' h same
  exact ⟨h.mono fun q _ hq _ hx => (same q hq).trans hx, trivial⟩

theorem ln_etcBind_meets :
    (ln c.etcDir etcName [.name etcName] bindName).Meets (Consistent image) anyStep
      (fun t => Complete image t ∧ t.kind etcBind = none) (Linked c image) := by
  refine ln_rule etc_mem_parents (fun _ h => h.base.layout) ?_
  intro t t' h same hlink
  exact ⟨⟨h.mono fun q _ hq _ hx => (same q hq).trans hx, hlink⟩, trivial⟩

theorem Linked.mono (h : Linked c image t) (same : SameElsewhere varLibBind t t') :
    Linked c image t' where
  complete := h.complete.mono fun q _ _ hq hx => (same q hq).trans hx
  link := (same etcBind (by decide)).trans h.link

theorem rm_varLibBind_meets :
    (rm [.name varName, .name libName] bindName).Meets (Consistent image) anyStep (Linked c image)
      (fun t => Linked c image t ∧ t.kind varLibBind = none) :=
  rm_rule lib_mem_parents (fun _ h => .inr h.complete) (fun _ h => h.complete.base.layout)
    fun _ _ h same => ⟨h.mono same, trivial⟩

theorem ln_varLibBind_meets :
    (ln c.libDir libName [.name varName, .name libName] bindName).Meets (Consistent image) anyStep
      (fun t => Linked c image t ∧ t.kind varLibBind = none) (Linked c image) :=
  ln_rule lib_mem_parents (fun _ h => h.complete.base.layout)
    fun _ _ h same _ => ⟨h.mono same, trivial⟩

/-! ## The script -/

private theorem script_names (hd : c.dataPath = [.name dataName]) :
    .name etcName ∉ c.dataPath ∧ .name etcName ∉ path c.libDir ∧
      .name etcName ∉ path "/var/run/named".toList ∧
      .name etcName ∉ path "/var/cache/bind".toList := by
  rw [path_libDir, hd]
  decide

theorem entrypoint_meets_linked (hd : c.dataPath = [.name dataName]) :
    Meets (Consistent image) anyStep (Consistent image) (entrypoint c Tree.Removing)
      (Linked c image) := by
  obtain ⟨hdata, hlib, hrun, hcache⟩ := script_names hd
  have keep : ∀ t, Consistent image t → Consistent image t := fun _ h => h
  have full : ∀ t, Complete image t → Consistent image t := fun _ h => .inr h
  have linked : ∀ t, Linked c image t → Consistent image t := fun _ h => .inr h.complete
  have moving : (Cmd.when (fun t : FileSystem => !t.leadsToDir (path c.etcDir))
      [mv Tree.Removing [.name etcName] bindName c.dataPath etcName]).Meets (Consistent image)
      anyStep (Consistent image) (Complete image) := by
    refine .when (fun _ => trivial) (fun _ _ => trivial)
      (.cons (fun _ h => h.1) (mv_meets_complete hd) (.nil full)) ?_
    intro t h ht
    refine h.resolve_left fun hf => ?_
    exact leadsToDir_etcDir hd hf.base (by simpa using ht) hf.absent
  have making : (Cmd.when (fun t : FileSystem => !t.leadsToDir (path c.libDir))
      [mkdir c (path c.libDir), chown c (path c.libDir)]).Meets (Consistent image) anyStep
      (Linked c image) (Linked c image) :=
    .when (fun _ => trivial) (fun _ _ => trivial)
      (.cons (fun _ h => linked _ h.1) (fun t t' h => (harmless_mkdir hlib).meets_linked t t' h.1)
        (.cons linked (harmless_chown _).meets_linked (.nil linked))) (fun _ h _ => h)
  have data : Meets (Consistent image) anyStep (Consistent image)
      (createBindDataDir c Tree.Removing) (Linked c image) :=
    .cons keep (harmless_mkdir hdata).meets_consistent <|
    .cons keep (harmless_chmodR _).meets_consistent <|
    .cons keep (harmless_chownR _).meets_consistent <|
    .cons keep moving <|
    .cons full rm_etcBind_meets <| .cons (fun _ h => full _ h.1) ln_etcBind_meets <|
    .cons linked making <|
    .cons linked rm_varLibBind_meets <|
    .cons (fun _ h => linked _ h.1) ln_varLibBind_meets <| .nil linked
  have pid : Meets (Consistent image) anyStep (Consistent image) (createPidDir c)
      (Consistent image) :=
    .cons keep (harmless_mkdir hrun).meets_consistent <|
    .cons keep (harmless_chown _).meets_consistent <| .nil keep
  have cache : Meets (Consistent image) anyStep (Linked c image) (createBindCacheDir c)
      (Linked c image) :=
    .cons linked (harmless_mkdir hcache).meets_linked <|
    .cons linked (harmless_chown _).meets_linked <| .nil linked
  exact (pid.append data).append cache

/-! ## Runs -/

def EmptyVolume (v : FileSystem) : Prop := ∀ q, [dataName] <:+ q → q ≠ [dataName] → v.node q = none

/-- Nothing is deleted or replaced in the volume, and `/data/etc` is not made by
hand. -/
def AddsInside (t t' : FileSystem) : Prop :=
  ∀ q, t'.node q = t.node q ∨ (t.node q = none ∧ [dataName] <:+ q ∧ q ≠ dataEtc)

theorem AddsInside.within (h : AddsInside t t') :
    Within t.kind t'.kind ∧ t'.kind dataEtc = t.kind dataEtc := by
  refine ⟨?_, ?_⟩
  · intro q x hx
    rcases h q with he | ⟨hn, _⟩
    · rw [← hx]
      exact Tree.kind_congr he
    · rw [← Tree.kind_eq_none_iff] at hn
      rw [hn] at hx
      cases hx
  · rcases h dataEtc with he | ⟨_, _, hne⟩
    · exact Tree.kind_congr he
    · exact absurd rfl hne

/-- The image as it is built: the two parents, the volume's directory and the
default configuration. -/
structure Built (image : FileSystem) : Prop where
  base : Base image
  dir : image.kind etcBind = some .dir

/-- In a new container `/etc/bind` is the image's, so all depends on the volume. -/
theorem Built.consistent_mount {v : FileSystem} (h : Built image)
    (hi : image.isDir [dataName] = true) (hv : v.isDir [dataName] = true)
    (hs : v.kind dataEtc = none ∨ (v.kind dataEtc = some .dir ∧ Defaults image dataEtc v)) :
    Consistent image (image.mount v [dataName] hi hv) := by
  have hin : ∀ q, [dataName] <:+ q → (image.mount v [dataName] hi hv).kind q = v.kind q := by
    intro q hq
    simp [Tree.kind, Tree.mount, hq]
  have hout : ∀ q, ¬ [dataName] <:+ q → (image.mount v [dataName] hi hv).kind q = image.kind q := by
    intro q hq
    simp [Tree.kind, Tree.mount, hq]
  have hbelow : ∀ s, ¬ [dataName] <:+ s ++ etcBind := fun s =>
    not_suffix_of_apart (List.suffix_append s etcBind) (by decide) (by decide)
  have hbase : Base (image.mount v [dataName] hi hv) :=
    ⟨⟨(hout _ (by decide)).trans h.base.layout.etc_dir,
      (hout _ (by decide)).trans h.base.layout.lib_dir⟩,
      (hin _ (List.suffix_refl _)).trans ((v.isDir_iff _).mp hv)⟩
  rcases hs with hn | ⟨hd, hf⟩
  · refine .inl ⟨hbase, (hin _ (by decide)).trans hn, (hout _ (by decide)).trans h.dir, ?_⟩
    intro s content hs
    rw [hout _ (hbelow s)]
    exact hs
  · refine .inr ⟨hbase, (hin _ (by decide)).trans hd, ?_⟩
    intro s content hs
    have hs' : [dataName] <:+ s ++ dataEtc :=
      (List.suffix_cons etcName [dataName]).trans (List.suffix_append s dataEtc)
    rw [hin _ hs']
    exact hf s content hs

theorem consistent_of_reachable (hd : c.dataPath = [.name dataName]) (hi : Built image)
    (h : Reachable image [dataName] EmptyVolume (entrypoint c Tree.Removing) AddsInside t) :
    Consistent image t := by
  induction h with
  | @create v hi' hv he =>
      refine hi.consistent_mount hi' hv (.inl ?_)
      rw [Tree.kind_eq_none_iff]
      exact he dataEtc (by decide) (by decide)
  | start _ hs ih =>
      exact ((entrypoint_meets_linked hd).stops (fun _ => trivial) (fun _ _ => trivial) hs ih).1
  | @recreate t hi' ht _ ih =>
      refine hi.consistent_mount hi' ht ?_
      rcases ih with hf | hc
      · exact .inl hf.absent
      · exact .inr ⟨hc.dir, hc.defaults⟩
  | edit _ he ih =>
      obtain ⟨hw, hn⟩ := he.within
      exact ih.imp (fun hf => hf.mono hw hn) fun hc => hc.within hw

/-- What the commands do when they are not cut does not depend on the cuts. -/
theorem exec_entrypoint_cut (c : Config) (cut cut' : MoveCut) :
    exec (entrypoint c cut) = exec (entrypoint c cut') := rfl

/-- From an empty volume, through any starts that are not stopped while `mv` copies,
re-creations of the container and additions to the volume: every start that
reaches the launch of `named` has the whole default configuration in place. -/
theorem defaults_complete_at_launch (c : Config) (hd : c.dataDir = "/data".toList)
    (image : FileSystem) (hi : Built image) {t t' : FileSystem}
    (hr : Reachable image [dataName] EmptyVolume (entrypoint c Tree.Removing) AddsInside t)
    (he : exec (entrypoint c anywhere) t = some t') : Configured c image t' := by
  have hp : c.dataPath = [.name dataName] := by
    rw [Config.dataPath, hd]
    decide
  rw [exec_entrypoint_cut c anywhere Tree.Removing] at he
  have hlinked := (entrypoint_meets_linked hp).exec (fun _ => trivial) (fun _ _ => trivial) he
    (consistent_of_reachable hp hi hr)
  exact hlinked.1.configured hp (by rw [hd]; decide)

theorem built_smallImage : Built smallImage :=
  ⟨⟨⟨by decide +kernel, by decide +kernel⟩, by decide +kernel⟩, by decide +kernel⟩

/-! ## The small image on an empty volume -/

def emptyVolume : FileSystem :=
  (Tree.empty dirNode.attr).put dataName [] dirNode (by decide) (by decide)

theorem emptyVolume_empty : EmptyVolume emptyVolume := by
  intro q hq hne
  have hroot : q ≠ [] := by
    rintro rfl
    exact absurd hq (by decide)
  rw [emptyVolume, Tree.put_node, if_neg hne]
  cases q with
  | nil => exact absurd rfl hroot
  | cons n p => rfl

def newContainer : FileSystem :=
  smallImage.mount emptyVolume [dataName] smallImage_data (by decide +kernel)

/-- A first start in a new container. -/
theorem defaults_complete_newContainer :
    ∃ t', exec (entrypoint Config.default anywhere) newContainer = some t' ∧
      Configured Config.default smallImage t' := by
  obtain ⟨t', he⟩ : ∃ t', exec (entrypoint Config.default anywhere) newContainer = some t' :=
    Option.isSome_iff_exists.mp (by decide +kernel)
  exact ⟨t', he, defaults_complete_at_launch Config.default rfl smallImage built_smallImage
    (.create _ _ emptyVolume_empty) he⟩

def upToMove : List (Cmd FileSystem) :=
  createPidDir Config.default ++ (createBindDataDir Config.default anywhere).take 3

theorem entrypoint_upToMove : ∃ rest, entrypoint Config.default anywhere = upToMove ++
    .when (fun t => !t.leadsToDir (path Config.default.etcDir))
      [mv anywhere [.name etcName] bindName Config.default.dataPath etcName] :: rest := ⟨_, rfl⟩

/-- The container when the move begins. -/
def movingContainer : FileSystem := (exec upToMove newContainer).get (by decide +kernel)

/-- The move has made the directory and copied nothing. -/
def killedContainer : FileSystem :=
  movingContainer.put etcName [dataName] dirNode (by decide +kernel) (by decide +kernel)

theorem copying_killedContainer :
    anywhere etcBind dataEtc movingContainer killedContainer := by
  have hdir : movingContainer.kind etcBind = some .dir := by decide +kernel
  have hnone : movingContainer.isDir dataEtc = false := by decide +kernel
  refine .inl ⟨?_, ?_⟩
  · intro q hq
    have hne : q ≠ dataEtc := fun he => hq (he ▸ List.suffix_refl _)
    rw [killedContainer, Tree.put_node]
    exact if_neg hne
  · intro s k hk
    rw [killedContainer, Tree.put_kind] at hk
    cases s with
    | nil =>
        cases hk.symm.trans (if_pos rfl)
        exact ⟨.dir, hdir, .dir⟩
    | cons n s =>
        have hne : n :: s ++ dataEtc ≠ dataEtc := by
          intro he
          have hl := congrArg List.length he
          rw [List.length_append, List.length_cons] at hl
          omega
        have hbelow := movingContainer.kind_eq_none_of_suffix (List.suffix_append (n :: s) dataEtc)
          (Ne.symm hne) hnone
        have hk' := hk.symm.trans ((if_neg hne).trans hbelow)
        cases hk'

theorem reachable_killedContainer : Reachable smallImage [dataName] EmptyVolume
    (entrypoint Config.default anywhere) AddsInside killedContainer := by
  have hmove : movingContainer.Moves [.name etcName] bindName Config.default.dataPath etcName
      [etcName] [dataName] :=
    ⟨by decide +kernel, by decide +kernel, by decide +kernel, by decide +kernel⟩
  have hbegun : exec upToMove newContainer = some movingContainer := (Option.some_get _).symm
  have htest : movingContainer.leadsToDir (path Config.default.etcDir) = false := by
    decide +kernel
  obtain ⟨rest, hscript⟩ := entrypoint_upToMove
  have hstop : Stops (entrypoint Config.default anywhere) newContainer killedContainer := by
    rw [hscript]
    refine .after hbegun (.inside ⟨by simp [htest], .inside ⟨_, _, hmove, ?_⟩⟩)
    exact copying_killedContainer
  exact .start (.create _ _ emptyVolume_empty) hstop

/-- Killed after `mv` has made `/data/etc` and before it has copied the file: the
next start finds the directory, deletes `/etc/bind` and reaches the launch. -/
theorem defaults_incomplete_after_kill :
    ∃ t t', Reachable smallImage [dataName] EmptyVolume (entrypoint Config.default anywhere)
        AddsInside t ∧
      exec (entrypoint Config.default anywhere) t = some t' ∧
      ¬ Configured Config.default smallImage t' := by
  let t' := (exec (entrypoint Config.default anywhere) killedContainer).get (by decide +kernel)
  have hkinds : t'.kind [dataName] = some .dir ∧ t'.kind dataEtc = some .dir ∧
      t'.kind (confName :: dataEtc) = none := by decide +kernel
  obtain ⟨hdata, hetc, hconf⟩ := hkinds
  have hpath : path Config.default.etcDir = [.name dataName, .name etcName] := by decide
  have hfile : smallImage.kind ([confName] ++ etcBind) = some (.file "options".toList) := by
    decide +kernel
  refine ⟨killedContainer, t', reachable_killedContainer, (Option.some_get _).symm, ?_⟩
  rintro ⟨r, n, m, _, hw, _, hdefaults⟩
  rw [hpath] at hw
  cases (hw.of_name hdata rfl).of_name hetc rfl
  have hcopied := hdefaults [confName] _ hfile
  have hnone := hcopied.symm.trans hconf
  cases hnone

end BindImage
