/-
Module: EvalCharts.Files.Disk
Purpose: What the program asks of a file system.
Main exports: Disk
-/
import EvalCharts.ByteStream
import EvalCharts.Files.Error

namespace EvalCharts

/-- A file system, seen through the effects that it has in `m`. Paths are relative to the working
    directory. -/
structure Disk (m : Type → Type) where
  /-- Open a file and read it. Opening may fail, and so may reading what has been opened. -/
  read : String → ExceptT FileError m ByteStream
  /-- Create a directory with the directories it stands in, as far as they do not exist. -/
  createDirectory : String → ExceptT FileError m Unit
  /-- Create a file with a content, or replace its content. -/
  write : String → String → ExceptT FileError m Unit

end EvalCharts
