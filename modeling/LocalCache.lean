import LocalCache.Extension
import LocalCache.GateTable
import LocalCache.Eviction
import LocalCache.UseOrder
import LocalCache.Keyset
import LocalCache.Rotation
import LocalCache.Paging
import LocalCache.RunningMax
import LocalCache.Sqlite
import LocalCache.Versions
import LocalCache.Migration
import LocalCache.Preservation
import LocalCache.Entries
import LocalCache.Working
import LocalCache.ImportOrder
import LocalCache.DecodeWork
import LocalCache.BatchSequence
import LocalCache.Json
import LocalCache.Query
import LocalCache.Runs
import LocalCache.Sessions
import LocalCache.Effects
import LocalCache.Listing
import LocalCache.Cleanups
import LocalCache.TornReads
import LocalCache.Addressing
import LocalCache.Filling
import LocalCache.Skips
import LocalCache.Portable
import LocalCache.Lockstep
import LocalCache.Renaming
import LocalCache.Isolation
import LocalCache.Materialize
import LocalCache.Decompress
import LocalCache.ResultOrder
import LocalCache.Glob
import LocalCache.OneShot
import LocalCache.WordLanguages
import LocalCache.GlobExpand
import LocalCache.SqliteGlob
import LocalCache.Contents
import LocalCache.NumberPushdown
import LocalCache.UseBackfill
import LocalCache.Tiers
import LocalCache.UriPath
import LocalCache.DirFilter
import LocalCache.Hashing
import LocalCache.PathIndexes
import LocalCache.LruCache
import LocalCache.SharedSessions
import LocalCache.Watcher
import LocalCache.Preload
import LocalCache.OpenRace
import LocalCache.Ddl
import LocalCache.Recognized
import LocalCache.CliImport
import LocalCache.Decimals
import LocalCache.Gregorian
import LocalCache.Timestamps
