import ServeD.Db.Refinement
import ServeD.Db.History
import ServeD.Db.Crash
import ServeD.Managers.Keys
import ServeD.Utils.Faults
import ServeD.Managers.FileTrigger
import ServeD.Managers.FileWatch
import ServeD.Ci.Worker
import ServeD.Ci.Clients
import ServeD.Managers.AccountUtils
import ServeD.Managers.Ports
import ServeD.Lib.Directories
import ServeD.Managers.Git
import ServeD.Managers.Registration
import ServeD.Managers.GitDirectories
import ServeD.Managers.GitReplies
import ServeD.Managers.GitRestart
import ServeD.Launchers.Arguments
import ServeD.Launchers.Uids
import ServeD.Dispel.Nodes
import ServeD.System.Processes
import ServeD.Managers.Accounts
import ServeD.Notifications.Xmpp
import ServeD.Utils.Properties
import ServeD.Utils.PublicKeys
import ServeD.Utils.Symlinks
import ServeD.Notifications.IrcFailures
import ServeD.Managers.WebApi
import ServeD.Utils.Archiver
import ServeD.Lib.Regexes
import ServeD.Managers.Domains
import ServeD.Managers.HeadlessPorts
import ServeD.Utils.SecSH
import ServeD.Notifications.Retention
import ServeD.Notifications.Counters
import ServeD.Launchers.PathSearch
import ServeD.Lib.CStrings
import ServeD.Lib.Replacing
import ServeD.Utils.Templates
import ServeD.Lib.Loops
import ServeD.Utils.Compression
import ServeD.Lib.JsonWriting
import ServeD.System.Usage
import ServeD.Lib.LinkTrees
import ServeD.Utils.Ownership
import ServeD.Lib.Joining
import ServeD.System.SampleQueue
import ServeD.Lib.Segments
import ServeD.Utils.Logging
import ServeD.Lib.Cutting
import ServeD.Launchers.Splitting
import ServeD.Lib.MaximalRuns
import ServeD.Launchers.Tokens
import ServeD.Lib.Levels
import ServeD.Utils.Gathering
import ServeD.Notifications.IrcPaging
import ServeD.Notifications.XmppConsole
import ServeD.Utils.BackupRuns
import ServeD.Utils.Restore
import ServeD.Launchers.Kickstart
import ServeD.Sshd.TtyFilter
import ServeD.Web.CookieTrips
import ServeD.Web.PanelInfluence
import ServeD.Web.PanelDomains
import ServeD.Managers.Boots
